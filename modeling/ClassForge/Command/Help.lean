import ClassForge.Command.Arguments

namespace ClassForge

def versionLine : String := "classgen 0.1.0"

def Topic.help : Topic → List String
  | .program => [
      "Lower typed syntax trees (as JSON) into JVM class files",
      "",
      "Usage: classgen <COMMAND>",
      "",
      "Commands:",
      "  compile  Generate class files for a compilation unit",
      "  dump     Summarize a class file",
      "  help     Print this message or the help of the given subcommand(s)",
      "",
      "Options:",
      "  -h, --help     Print help",
      "  -V, --version  Print version"]
  | .compile =>
    let output := "Directory under which class files are written (by package) [default: .]"
    let target := "Java release of the generated class files (eg. `1.4`, `8`, `17`) [default: 8]"
    let debug := "Debug info: comma separated `lines`, `vars`, `source`, or `none`"
    let limit := "Largest `finally` block to duplicate, for targets with `jsr`"
    [ "Generate class files for a compilation unit",
      "",
      "Usage: classgen compile [OPTIONS] <INPUT>",
      "",
      "Arguments:",
      "  <INPUT>  Typed syntax tree of the compilation unit, as JSON",
      "",
      "Options:",
      "  -d <DIR>                          " ++ output,
      "      --target <RELEASE>            " ++ target,
      "  -g <KINDS>                        " ++ debug ++ " [default: source,lines]",
      "      --finalizer-inline-limit <N>  " ++ limit,
      "      --dry-run                     Generate the classes without writing them",
      "  -h, --help                        Print help"]
  | .dump => [
      "Summarize a class file",
      "",
      "Usage: classgen dump <CLASS>",
      "",
      "Arguments:",
      "  <CLASS>  ",
      "",
      "Options:",
      "  -h, --help  Print help"]

end ClassForge
