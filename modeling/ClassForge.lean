import ClassForge.ClassFile.Json
import ClassForge.Instruction.Json
import ClassForge.Json.Printer
import ClassForge.Main
import ClassForge.Proofs.Linear
import ClassForge.Proofs.Forgetting
import ClassForge.Proofs.Casting
import ClassForge.Proofs.Selection
import ClassForge.Proofs.AttributeCoding
import ClassForge.Proofs.Increments
import ClassForge.Proofs.Watermarks
import ClassForge.Proofs.Weighing
import ClassForge.Proofs.Nesting
import ClassForge.Proofs.Addressing
import ClassForge.Proofs.Interleaving
