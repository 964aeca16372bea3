import ClassForge.Proofs.Faults
import ClassForge.Proofs.Stocking

namespace ClassForge

/-- Positions of the frames of a table after a frame that stands just before `offset`. -/
def MapFrame.positions (offset : Nat) : List MapFrame → List Nat
  | [] => []
  | frame :: rest =>
    (offset + frame.delta.toNat) :: MapFrame.positions (offset + frame.delta.toNat + 1) rest

theorem Frame.delta_compress (frame previous : CFrame) (delta : UInt16) :
    (frame.compress delta previous).delta = delta := by
  unfold Frame.compress Frame.toFull
  dsimp only
  split
  · split
    · split
      · split <;> rfl
      · rfl
    · split <;> rfl
  · split <;> rfl
  · rfl

namespace Payload

/-- Positions in the code that a table inside a `Code` attribute speaks of: those of lines and those
of frames. Other payloads do not belong there. -/
def positions? : Payload → Option (List Nat)
  | .lineNumbers rows => some (rows.map fun row => row.pc.toNat)
  | .stackMap frames => some (MapFrame.positions 0 frames)
  | .localVariables _ | .localVariableTypes _ => some []
  | _ => none

end Payload

/-- The attribute is the payload, as a class file with the pool holds it. -/
def Attribute.Holds (a : Attribute) (pool : Pool) (payload : Payload) : Prop :=
  pool.get? (.utf8 payload.name) = some a.name ∧ payload.encode = .ok a.info

theorem Attribute.Holds.stocked {a : Attribute} {pool later : Pool} {payload : Payload}
    (holds : a.Holds pool payload) (stocked : pool.Stocked later) : a.Holds later payload :=
  ⟨stocked.grows.extends.get? holds.1, holds.2⟩

theorem Build.attributeOf_holds {payload : Payload} {a : Attribute} {start later : Pool}
    (run : attributeOf payload start = .ok a later) : a.Holds later payload := by
  obtain ⟨name, between, named, made⟩ := estate_bind_ok.mp run
  have known := ((Pool.interns_put (.utf8 payload.name)).extends (pool_ok.mp named)).2
  cases written : payload.encode with
  | error cause =>
    rw [written] at made
    cases made
  | ok info =>
    rw [written] at made
    cases made
    exact ⟨known, written⟩

namespace Pool

/-- The frame as a class file with the pool holds it, if all of its classes are in the pool. -/
def classFrame? (pool : Pool) (frame : VFrame) : Option CFrame :=
  frame.mapM (fun type => pool.get? (.classRef type)) fun site => some site.pc

/-- The rows are the frames as a class file with the pool holds them, at the same positions. -/
def Tabulates (pool : Pool) : List (Nat × VFrame) → List (Nat × CFrame) → Prop :=
  List.Forall₂ fun frame row => row.1 = frame.1 ∧ pool.classFrame? frame.2 = some row.2

def Lists (pool : Pool) : List Payload → List Attribute → Prop :=
  List.Forall₂ fun payload a => a.Holds pool payload

def Names (pool : Pool) (type : VType) (made : CType) : Prop :=
  type.mapM (fun type => pool.get? (.classRef type)) (fun site => some site.pc) = some made

variable {pool later : Pool} {frame : VFrame} {made : CFrame}

theorem Names.stocked {type : VType} {made : CType} (names : pool.Names type made)
    (stocked : pool.Stocked later) : later.Names type made := by
  cases type with
  | object type =>
    obtain ⟨index, same, rest⟩ := Option.bind_eq_some_iff.mp names
    exact Option.bind_eq_some_iff.mpr ⟨index, stocked.grows.extends.get? same, rest⟩
  | _ => exact names

theorem classFrame?_eq_some : pool.classFrame? frame = some made ↔
    List.Forall₂ pool.Names frame.locals.toList made.locals.toList ∧
      List.Forall₂ pool.Names frame.stack.toList made.stack.toList ∧ made.LaidOut := by
  have each {types : List VType} {made : List CType} : types.mapM (VerificationType.mapM
      (fun type => pool.get? (.classRef type)) fun site => some site.pc) = some made ↔
      List.Forall₂ pool.Names types made := by
    induction types generalizing made with
    | nil => simp [List.forall₂_nil_left_iff, eq_comm]
    | cons type rest ih =>
      simp [List.forall₂_cons_left_iff, Option.bind_eq_some_iff, ih, Names, @eq_comm _ made]
  simp only [classFrame?, Frame.mapM, Option.bind_eq_bind, Option.bind_eq_some_iff, each,
    Option.pure_def, Option.some.injEq]
  constructor
  · rintro ⟨types, locals, others, stack, rfl⟩
    rw [SlotSeq.toList_ofList, SlotSeq.toList_ofList]
    exact ⟨locals, stack, ⟨types, rfl⟩, others, rfl⟩
  · rintro ⟨locals, stack, ⟨types, built⟩, others, built'⟩
    rw [built, SlotSeq.toList_ofList] at locals
    rw [built', SlotSeq.toList_ofList] at stack
    refine ⟨types, locals, others, stack, ?_⟩
    rw [← built, ← built']

theorem classFrame?_stocked (known : pool.classFrame? frame = some made)
    (stocked : pool.Stocked later) : later.classFrame? frame = some made := by
  obtain ⟨locals, stack, laid⟩ := classFrame?_eq_some.mp known
  exact classFrame?_eq_some.mpr ⟨locals.imp fun _ _ names => names.stocked stocked,
    stack.imp fun _ _ names => names.stocked stocked, laid⟩

theorem size_classFrame? (known : pool.classFrame? frame = some made) :
    made.locals.size = frame.locals.size ∧ made.stack.size = frame.stack.size := by
  obtain ⟨locals, stack, _⟩ := classFrame?_eq_some.mp known
  simp only [← SlotSeq.length_toList]
  exact ⟨locals.length_eq.symm, stack.length_eq.symm⟩

theorem Tabulates.positions {frames : List (Nat × VFrame)} {rows : List (Nat × CFrame)}
    (tabulates : pool.Tabulates frames rows) : rows.map (·.1) = frames.map (·.1) := by
  induction tabulates with
  | nil => rfl
  | cons row _ ih => rw [List.map_cons, List.map_cons, row.1, ih]

theorem Tabulates.laidOut {frames : List (Nat × VFrame)} {rows : List (Nat × CFrame)}
    (tabulates : pool.Tabulates frames rows) : ∀ row ∈ rows, row.2.LaidOut := by
  intro row member
  obtain ⟨_, _, _, made⟩ := exists_of_forall₂ tabulates member
  exact (classFrame?_eq_some.mp made).2.2

end Pool

namespace Frame

variable {previous : CFrame} {offset : Nat} {rows : List (Nat × CFrame)}

/-- Frames as changes to those before them; `offset` is one past the previous frame. -/
def compressFrom (previous : CFrame) (offset : Nat) : List (Nat × CFrame) → List MapFrame
  | [] => []
  | (pc, frame) :: rest =>
    frame.compress (UInt16.ofNat (pc - offset)) previous :: compressFrom frame (pc + 1) rest

theorem decompressFrom_compressFrom (before : previous.LaidOut) (laid : ∀ row ∈ rows, row.2.LaidOut)
    (sorted : (rows.map (·.1)).Pairwise (· < ·))
    (above : ∀ pc ∈ rows.map (·.1), offset ≤ pc) (fits : ∀ pc ∈ rows.map (·.1), pc < 0x10000) :
    decompressFrom previous offset (compressFrom previous offset rows) = .ok rows ∧
      MapFrame.positions offset (compressFrom previous offset rows) = rows.map (·.1) := by
  induction rows generalizing previous offset with
  | nil => exact ⟨rfl, rfl⟩
  | cons row rest ih =>
    obtain ⟨pc, frame⟩ := row
    simp only [List.map_cons, List.pairwise_cons, List.forall_mem_cons] at laid sorted above fits
    obtain ⟨restores, positions⟩ := @ih frame _ laid.1 laid.2 sorted.2 sorted.1 fits.2
    have delta : offset + (UInt16.ofNat (pc - offset)).toNat = pc := by
      rw [UInt16.toNat_ofNat_of_lt' (by simp only [UInt16.size]; omega)]
      omega
    rw [compressFrom, decompressFrom, MapFrame.positions, apply_compress laid.1 before,
      delta_compress, delta]
    exact ⟨except_bind_ok.mpr ⟨frame, rfl, except_bind_ok.mpr ⟨rest, restores, rfl⟩⟩, by
      rw [positions, List.map_cons]⟩

end Frame

namespace Asm

variable {α β : Type} {ctx : Context} {b b' : Buffer} {x : Asm α} {f : α → Asm β}
  {good : α → Pool → Prop} {fit : β → Pool → Prop} {a : α}

/-- All that the action does to the buffer is to put values into the pool, and then its answer is
good. If it fails, it does not blame the jumps. -/
def Draws (ctx : Context) (b : Buffer) (x : Asm α) (good : α → Pool → Prop) : Prop :=
  match x ctx b with
  | .ok a b' => ∃ later, b' = { b with pool := later } ∧ b.pool.Stocked later ∧ good a later
  | .error e _ => e.IsTame

namespace Draws

theorem ok (draws : Draws ctx b x good) (run : x ctx b = .ok a b') :
    ∃ later, b' = { b with pool := later } ∧ b.pool.Stocked later ∧ good a later := by
  unfold Draws at draws
  rw [run] at draws
  exact draws

theorem tameAt (draws : Draws ctx b x good) : TameAt ctx b x := by
  intro e b' failed
  unfold Draws at draws
  rw [failed] at draws
  exact draws

theorem pure (known : good a b.pool) : Draws ctx b (pure a) good := ⟨b.pool, rfl, .refl, known⟩

theorem bind (first : Draws ctx b x good) (second : ∀ a later, b.pool.Stocked later → good a later →
    Draws ctx { b with pool := later } (f a) fit) : Draws ctx b (x >>= f) fit := by
  unfold Draws at first ⊢
  change match EStateM.bind (x ctx) (fun a => f a ctx) b with | .ok .. => _ | .error .. => _
  unfold EStateM.bind
  cases run : x ctx b with
  | error e b' =>
    rw [run] at first
    exact first
  | ok a b' =>
    rw [run] at first
    obtain ⟨later, rfl, stocked, known⟩ := first
    have rest := second a later stocked known
    unfold Draws at rest
    dsimp only
    cases ran : f a ctx { b with pool := later } with
    | error e b' =>
      rw [ran] at rest
      exact rest
    | ok c b' =>
      rw [ran] at rest
      obtain ⟨last, rfl, more, answer⟩ := rest
      exact ⟨last, rfl, stocked.trans more, answer⟩

theorem mono {weak : α → Pool → Prop} (draws : Draws ctx b x good)
    (imp : ∀ a later, b.pool.Stocked later → good a later → weak a later) : Draws ctx b x weak := by
  unfold Draws at draws ⊢
  split at draws
  · obtain ⟨later, same, stocked, known⟩ := draws
    exact ⟨later, same, stocked, imp _ _ stocked known⟩
  · exact draws

theorem ite {c : Prop} [Decidable c] {y : Asm α} (yes : c → Draws ctx b x good)
    (no : ¬c → Draws ctx b y good) : Draws ctx b (if c then x else y) good := by
  split
  · exact yes ‹_›
  · exact no ‹_›

theorem mapM {related : α → β → Pool → Prop}
    (each : ∀ a pool, Draws ctx { b with pool } (f a) (related a))
    (keeps : ∀ {a c pool later}, related a c pool → pool.Stocked later → related a c later)
    (items : List α) (pool : Pool) : Draws ctx { b with pool } (items.mapM f) fun made later =>
      List.Forall₂ (fun a c => related a c later) items made := by
  induction items generalizing pool with
  | nil =>
    rw [List.mapM_nil]
    exact pure .nil
  | cons item rest ih =>
    rw [List.mapM_cons]
    refine (each item pool).bind fun c later _ known => (ih later).bind fun more last stocked all => ?_
    exact pure (.cons (keeps known stocked) all)

end Draws

theorem draws_put (value : PoolValue) :
    Draws ctx b (pool (Pool.put value)) fun index later => later.get? value = some index := by
  unfold Draws pool
  cases run : Pool.put value b.pool with
  | error e later => trivial
  | ok index later =>
    exact ⟨later, rfl, .single ⟨value, index, run⟩, ((Pool.interns_put value).extends run).2⟩

theorem draws_attributeOf (payload : Payload) : Draws ctx b (attributeOf payload) fun built later =>
    built.Holds later payload := by
  unfold Draws attributeOf build
  cases made : Build.attributeOf payload b.pool with
  | ok built later =>
    exact ⟨later, rfl, Build.stocks_attributeOf _ made, Build.attributeOf_holds made⟩
  | error e later =>
    unfold Build.attributeOf at made
    change EStateM.bind _ _ _ = _ at made
    unfold EStateM.bind Build.pool at made
    cases named : Pool.utf8 payload.name b.pool with
    | error early between =>
      simp only [named] at made
      cases made
      trivial
    | ok name between =>
      simp only [named] at made
      cases written : payload.encode with
      | ok info =>
        simp only [written] at made
        cases made
      | error early =>
        simp only [written] at made
        cases made
        trivial

theorem draws_table (payload : Payload) :
    Draws ctx b (do return [← attributeOf payload]) fun made later => later.Lists [payload] made :=
  (draws_attributeOf payload).bind fun _ _ _ holds => .pure (.cons holds .nil)

def SameRange (entry : CatchEntry) (row : ExceptionHandler) : Prop :=
  row.start = entry.start ∧ row.stop = entry.stop ∧ row.handler = entry.handler

theorem draws_handlerOf (entry : CatchEntry) :
    Draws ctx b (handlerOf entry) fun row _ => SameRange entry row := by
  unfold handlerOf
  cases entry.catchType with
  | none => exact .pure ⟨rfl, rfl, rfl⟩
  | some name => exact (draws_put (.classRef _)).bind fun _ _ _ _ => .pure ⟨rfl, rfl, rfl⟩

theorem draws_variablesOf (range : LocalRange) :
    Draws ctx b (variablesOf range) fun _ _ => True := by
  refine (draws_put (.utf8 _)).bind fun _ _ _ _ => (draws_put (.utf8 _)).bind fun _ _ _ _ => ?_
  cases range.debug.signature with
  | none => exact .pure trivial
  | some signature => exact (draws_put (.utf8 _)).bind fun _ _ _ _ => .pure trivial

theorem draws_classFrame (frame : VFrame) :
    Draws ctx b (classFrame frame) fun made later => later.classFrame? frame = some made := by
  have type (type : VType) (start : Pool) : Draws ctx { b with pool := start }
      (type.mapM (fun type => pool (Pool.classRef type)) fun site => pure site.pc)
      fun made later => later.Names type made := by
    cases type with
    | object type =>
      refine (draws_put (.classRef type)).bind fun _ _ _ known => .pure ?_
      exact Option.bind_eq_some_iff.mpr ⟨_, known, rfl⟩
    | uninitialized site =>
      have kept : Draws ctx { b with pool := start } (pure site.pc) fun pc _ => pc = site.pc := .pure rfl
      exact kept.bind fun _ _ _ same => .pure (by rw [same]; rfl)
    | _ => exact .pure rfl
  refine (Draws.mapM type Pool.Names.stocked frame.locals.toList b.pool).bind fun locals later _ first => ?_
  refine (Draws.mapM type Pool.Names.stocked frame.stack.toList later).bind fun stack last more second => ?_
  refine .pure (Pool.classFrame?_eq_some.mpr ⟨?_, ?_, ⟨_, rfl⟩, _, rfl⟩)
  · rw [SlotSeq.toList_ofList]
    exact first.imp fun _ _ names => names.stocked more
  · rwa [SlotSeq.toList_ofList]

theorem draws_compressFrames (previous : CFrame) (offset : Nat) (table : Array MapFrame)
    (frames : List (Nat × VFrame)) :
    Draws ctx b (compressFrames previous offset table frames) fun found later => ∃ rows,
      later.Tabulates frames rows ∧
        found.toList = table.toList ++ Frame.compressFrom previous offset rows := by
  induction frames generalizing previous offset table b with
  | nil => exact .pure ⟨[], .nil, (List.append_nil _).symm⟩
  | cons row rest ih =>
    obtain ⟨pc, frame⟩ := row
    refine (draws_classFrame frame).bind fun made later _ known => (ih _ _ _).mono
      fun found last stocked ⟨rows, tabulates, same⟩ => ⟨(pc, made) :: rows, ?_, ?_⟩
    · exact .cons ⟨rfl, Pool.classFrame?_stocked known stocked⟩ tabulates
    · rw [same, Array.toList_push, List.append_assoc]
      rfl

def MayList (pool : Pool) (payloads : List Payload) (made : List Attribute) : Prop :=
  ∃ some : List Payload, some.Sublist payloads ∧ pool.Lists some made

theorem draws_lineTable : Draws ctx b lineTable fun made later => MayList later
    [.lineNumbers (b.lines.toList.map fun row => ⟨UInt16.ofNat row.1, row.2⟩)] made :=
  .ite (fun _ => (draws_table _).mono fun _ _ _ lists => ⟨_, .refl _, lists⟩)
    fun _ => .pure ⟨[], List.nil_sublist _, .nil⟩

theorem draws_variableTables : Draws ctx b variableTables fun made later => ∃ rows typed,
    MayList later [.localVariables rows, .localVariableTypes typed] made := by
  refine .ite (fun _ => ?_) fun _ => .pure ⟨[], [], [], List.nil_sublist _, .nil⟩
  refine (Draws.mapM (fun range _ => draws_variablesOf range) (fun _ _ => trivial) _ b.pool).bind
    fun rows _ _ _ => (draws_attributeOf _).bind fun table later _ holds => ?_
  cases rows.filterMap (·.2) with
  | nil =>
    exact .pure ⟨_, [], [_], List.singleton_sublist.mpr (.head _), .cons holds .nil⟩
  | cons row more =>
    refine (draws_attributeOf (.localVariableTypes (row :: more))).bind fun types last stocked holds' =>
      .pure ⟨_, row :: more, _, .refl _, .cons (holds.stocked stocked) (.cons holds' .nil)⟩

theorem MayList.each {pool : Pool} {payloads : List Payload} {made : List Attribute}
    (lists : MayList pool payloads made) {built : Attribute} (member : built ∈ made) :
    ∃ payload ∈ payloads, built.Holds pool payload := by
  obtain ⟨some, fewer, lists⟩ := lists
  obtain ⟨payload, listed, holds⟩ := exists_of_forall₂ lists member
  exact ⟨payload, fewer.subset listed, holds⟩

theorem MayList.length_le {pool : Pool} {payloads : List Payload} {made : List Attribute}
    (lists : MayList pool payloads made) : made.length ≤ payloads.length := by
  obtain ⟨some, fewer, lists⟩ := lists
  exact lists.length_eq ▸ fewer.length_le

/-- The stack map is made of the frames, if there are any and stack maps are wanted. -/
def MapsFrames (ctx : Context) (b : Buffer) (pool : Pool) (made : List Attribute) : Prop :=
  if ctx.settings.stackMaps && !b.frames.isEmpty then
    ∃ initial rows, pool.classFrame? b.initialFrame = some initial ∧
      pool.Tabulates b.frames.toList rows ∧
      pool.Lists [.stackMap (Frame.compressFrom initial 0 rows)] made
  else made = []

theorem draws_stackMapTable : Draws ctx b stackMapTable fun made later => MapsFrames ctx b later made := by
  unfold MapsFrames
  refine .ite (fun maps => ?_) fun none => .pure (by rw [if_neg none])
  simp only [if_pos maps]
  refine (draws_classFrame _).bind fun initial _ _ known => (draws_compressFrames _ _ _ _).bind
    fun table later more ⟨rows, tabulates, same⟩ => (draws_table _).mono fun made last most lists => ?_
  refine ⟨initial, rows, Pool.classFrame?_stocked known (more.trans most),
    tabulates.imp fun _ _ row => ⟨row.1, Pool.classFrame?_stocked row.2 most⟩, ?_⟩
  rwa [show table.toList = _ by simpa using same] at lists

theorem compressCatches_ok {y : Unit} (run : compressCatches ctx b = .ok y b') :
    b' = { b with catches := b'.catches } ∧ ∀ row ∈ b'.catches.toList, row ∈ b.catches.toList := by
  cases modify_ok.mp run
  refine ⟨rfl, fun row member => ?_⟩
  rw [Array.toList_filter] at member
  exact List.mem_of_mem_filter member

/-- Everything in a finished body comes from the buffer. -/
structure Finished (ctx : Context) (b : Buffer) (code : Code) (pool : Pool) : Prop where
  handlers : List.Forall₂ SameRange b.catches.toList code.handlers
  attributes : ∃ lines locals maps, code.attributes = lines ++ locals ++ maps ∧
    MayList pool [.lineNumbers (b.lines.toList.map fun row => ⟨UInt16.ofNat row.1, row.2⟩)] lines ∧
    (∃ rows typed, MayList pool [.localVariables rows, .localVariableTypes typed] locals) ∧
    MapsFrames ctx b pool maps

namespace Finished

variable {code : Code} {pool : Pool} (finished : Finished ctx b code pool)

include finished

theorem length_attributes : code.attributes.length ≤ 4 := by
  obtain ⟨lines, locals, maps, same, first, ⟨rows, typed, second⟩, third⟩ := finished.attributes
  have one := first.length_le
  have two := second.length_le
  have three : maps.length ≤ 1 := by
    unfold MapsFrames at third
    split at third
    · obtain ⟨_, _, _, _, lists⟩ := third
      exact lists.length_eq.symm.le
    · rw [third]
      exact Nat.zero_le 1
  simp only [same, List.length_append, List.length_cons, List.length_nil] at one two ⊢
  omega

theorem tables (sorted : b.frames.toList.Pairwise (·.1 < ·.1))
    (frames : ∀ row ∈ b.frames.toList, row.1 < 0x10000)
    (lines : ∀ row ∈ b.lines.toList, row.1 < 0x10000) {built : Attribute}
    (member : built ∈ code.attributes) : ∃ payload positions, built.Holds pool payload ∧
      payload.positions? = some positions ∧ ∀ p ∈ positions,
        p ∈ b.lines.toList.map (·.1) ∨ p ∈ b.frames.toList.map (·.1) := by
  obtain ⟨_, _, maps, same, first, ⟨rows, typed, second⟩, third⟩ := finished.attributes
  rw [same, List.mem_append, List.mem_append] at member
  rcases member with (line | table) | frame
  · obtain ⟨payload, listed, holds⟩ := first.each line
    cases List.mem_singleton.mp listed
    refine ⟨_, _, holds, rfl, fun p inside => .inl ?_⟩
    simp only [List.map_map, List.mem_map, Function.comp] at inside ⊢
    obtain ⟨row, listed, rfl⟩ := inside
    exact ⟨row, listed, (UInt16.toNat_ofNat_of_lt' (lines row listed)).symm⟩
  · obtain ⟨payload, listed, holds⟩ := second.each table
    simp only [List.mem_cons, List.not_mem_nil, or_false] at listed
    rcases listed with rfl | rfl
    · exact ⟨_, [], holds, rfl, nofun⟩
    · exact ⟨_, [], holds, rfl, nofun⟩
  · unfold MapsFrames at third
    split at third
    · obtain ⟨initial, rows, known, tabulates, lists⟩ := third
      obtain ⟨payload, listed, holds⟩ := exists_of_forall₂ lists frame
      cases List.mem_singleton.mp listed
      refine ⟨_, _, holds, rfl, fun p inside => .inr ?_⟩
      have here := tabulates.positions
      rwa [(Frame.decompressFrom_compressFrom (Pool.classFrame?_eq_some.mp known).2.2
        tabulates.laidOut (here ▸ List.pairwise_map.mpr sorted)
        (fun _ _ => Nat.zero_le _) (here ▸ List.forall_mem_map.mpr frames)).2, here] at inside
    · rw [third] at frame
      cases frame

end Finished

theorem draws_checkLimits : Draws ctx b checkLimits fun _ _ => True := by
  have stopped {e : Error} {next : Asm Unit} {c : Buffer} (tame : e.IsTame) :
      Draws ctx c (do throw e; next) fun _ _ => True := tame
  exact .ite (fun _ => stopped trivial) fun _ => .ite (fun _ => stopped trivial) fun _ =>
    .ite (fun _ => trivial) fun _ => .pure trivial

theorem MayList.stocked {pool later : Pool} {payloads : List Payload} {made : List Attribute}
    (lists : MayList pool payloads made) (stocked : pool.Stocked later) :
    MayList later payloads made := by
  obtain ⟨some, fewer, lists⟩ := lists
  exact ⟨some, fewer, lists.imp fun _ _ holds => holds.stocked stocked⟩

/-- Finishing succeeds or fails for want of room, and the body then holds what has been recorded. -/
theorem draws_finish (resolved : b.unresolved = 0) : Draws ctx b finish (Finished ctx b) := by
  refine draws_checkLimits.bind fun _ pool _ _ => .ite (fun some => absurd some ?_) fun _ => ?_
  · change ¬b.unresolved > 0
    omega
  refine (Draws.mapM (fun entry _ => draws_handlerOf entry) (fun same _ => same) _ pool).bind
    fun handlers _ _ copied => draws_lineTable.bind fun lines _ _ first =>
    draws_variableTables.bind fun locals _ more ⟨rows, typed, second⟩ =>
    draws_stackMapTable.bind fun maps last most third => .pure ⟨copied, lines, locals, maps, rfl, ?_⟩
  exact ⟨first.stocked (more.trans most), ⟨rows, typed, second.stocked most⟩, third⟩

end Asm

end ClassForge
