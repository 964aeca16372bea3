import ClassForge.Proofs.TreeLeaves

namespace ClassForge

section Parts

variable {α : Type} {key : String} {rest : List (String × Json)}

theorem Json.optional_ofOption {write : α → Json} {x : Option α}
    {read : Json → Option α} (given : ∀ a, (write a).isNull = false)
    (back : ∀ a ∈ x, read (write a) = some a) :
    (object ((key, ofOption write x) :: rest)).optional key (fun v => read v.val) = some x := by
  rw [optional_head]
  cases x with
  | none => rfl
  | some a => simp [ofOption, given, back a rfl]

theorem Json.optional_ofType {type : Option FieldType}
    (valid : ∀ leaf ∈ type.toList.map Leaf.fieldType, leaf.Writable) :
    (object ((key, ofType type) :: rest)).optional key (fun v => FieldType.ofJson? v.val) =
      some type := by
  refine optional_ofOption (fun _ => rfl) fun t member => FieldType.ofJson?_iff.mpr ?_
  exact ⟨(valid (.fieldType t) (by simpa using member)).1, rfl⟩

theorem Json.optional_constant {constant : Option Literal}
    (finite : ∀ leaf ∈ constant.toList.map Leaf.constant, leaf.Writable) :
    (object ((key, ofOption Literal.toJson constant) :: rest)).optional key
      (fun v => Literal.ofJson? v.val) = some constant := by
  refine optional_ofOption (fun value => by cases value <;> rfl) fun value member => ?_
  exact Literal.ofJson?_toJson (finite (.constant value) (by simpa using member)).2

theorem Json.optional_className {name : Option BinaryName}
    (valid : ∀ leaf ∈ name.toList.map Leaf.owner, leaf.Writable) :
    (object ((key, ofOption (fun name : BinaryName => .string name.text) name) :: rest)).optional key
      (fun v => BinaryName.ofJson? v.val) = some name := by
  refine optional_ofOption (fun _ => rfl) fun name member => BinaryName.ofJson?_iff.mpr ?_
  exact ⟨(valid (.owner name) (by simpa using member)).1, rfl⟩

theorem Json.optional_text {text : Option String} :
    (object ((key, ofOption .string text) :: rest)).optional key (fun v => v.val.asString?) =
      some text :=
  optional_ofOption (fun _ => rfl) fun _ _ => rfl

theorem Json.optional_ofLine {line : Option UInt16} :
    (object ((key, ofLine line) :: rest)).optional key (fun v => v.val.asWord16?) = some line :=
  optional_ofOption (fun _ => rfl) fun n _ => asWord16?_nat n

theorem Json.listOf_ofNames {names : List BinaryName}
    (valid : ∀ leaf ∈ names.map Leaf.owner, leaf.Writable) :
    (ofNames names).listOf (fun w => BinaryName.ofJson? w.val) = some names := by
  refine listOf_map fun name member => BinaryName.ofJson?_iff.mpr ?_
  exact ⟨(valid (.owner name) (List.mem_map_of_mem member)).1, rfl⟩

/-- A list is read back if its items are. The writer and the leaves of a list are given by what they
do on a first item, as both recurse together with the ones of an item. -/
theorem Json.listOf_written {read : Json → Option α} {write : α → Json}
    (writes : List α → List Json) {leaves : α → List Leaf} {within : List α → List Leaf}
    (nil : writes [] = []) (cons : ∀ a as, writes (a :: as) = write a :: writes as)
    (inside : ∀ a as, within (a :: as) = leaves a ++ within as) (items : List α)
    (held : ∀ leaf ∈ within items, leaf.Writable)
    (back : ∀ a ∈ items, (∀ leaf ∈ leaves a, leaf.Writable) → read (write a) = some a) :
    ((array (writes items)).listOf fun w => read w.val) = some items := by
  induction items with
  | nil =>
    rw [nil]
    rfl
  | cons a as ih =>
    rw [List.forall_mem_cons] at back
    rw [inside, List.forall_mem_append] at held
    rw [cons, listOf_cons, back.1 held.1, ih held.2 back.2]
    rfl

theorem FieldRef.ofJson?_toJson {ref : FieldRef} (held : ∀ leaf ∈ ref.allLeaves, leaf.Writable) :
    ofJson? ref.toJson = some ref := by
  simp only [allLeaves, List.forall_mem_cons, Leaf.Writable, Leaf.Valid, Leaf.Finite, and_true] at held
  obtain ⟨owner, name, type, -⟩ := held
  simp (disch := decide) [ofJson?, toJson, BinaryName.ofJson?_iff.mpr ⟨owner, rfl⟩,
    UnqualifiedName.ofJson?_iff.mpr ⟨name, rfl⟩, FieldType.ofJson?_iff.mpr ⟨type, rfl⟩, Json.asBool?]

theorem MethodRef.ofJson?_toJson {ref : MethodRef} (held : ∀ leaf ∈ ref.allLeaves, leaf.Writable) :
    ofJson? ref.toJson = some ref := by
  simp only [allLeaves, List.forall_mem_cons, Leaf.Writable, Leaf.Valid, Leaf.Finite, and_true] at held
  obtain ⟨owner, name, type, -⟩ := held
  simp (disch := decide) [ofJson?, toJson, BinaryName.ofJson?_iff.mpr ⟨owner, rfl⟩,
    UnqualifiedName.ofJson?_iff.mpr ⟨name, rfl⟩, MethodDescriptor.ofJson?_iff.mpr ⟨type, rfl⟩,
    Json.asBool?]

theorem Nesting.ofJson?_toJson {nesting : Nesting}
    (held : ∀ leaf ∈ nesting.allLeaves, leaf.Writable) : ofJson? nesting.toJson = some nesting := by
  simp only [allLeaves, List.forall_mem_cons] at held
  obtain ⟨outer, access, name⟩ := held
  have simple (rest : List (String × Json)) : (Json.object (("simple_name", .ofOption
      (fun name : UnqualifiedName => .string name.text) nesting.simpleName) :: rest)).optional
        "simple_name" (fun v => UnqualifiedName.ofJson? v.val) = some nesting.simpleName := by
    refine Json.optional_ofOption (fun _ => rfl) fun name' member => UnqualifiedName.ofJson?_iff.mpr ?_
    exact ⟨(name (.member name') (by simpa using member)).1, rfl⟩
  simp (disch := decide) [ofJson?, toJson, BinaryName.ofJson?_iff.mpr ⟨outer.1, rfl⟩, simple,
    AccessFlags.ofJson?_ofFlags access.1]

theorem VarDecl.ofJson?_toJson {var : VarDecl} (held : ∀ leaf ∈ var.allLeaves, leaf.Writable) :
    ofJson? var.toJson = some var := by
  simp only [allLeaves, List.forall_mem_cons] at held
  obtain ⟨name, type, constant⟩ := held
  simp (disch := decide) [ofJson?, toJson, UnqualifiedName.ofJson?_iff.mpr ⟨name.1, rfl⟩,
    FieldType.ofJson?_iff.mpr ⟨type.1, rfl⟩, Json.optional_text, Json.optional_constant constant]

end Parts

section Expressions

@[simp] theorem UnaryOp.ofJson?_word (op : UnaryOp) : ofJson? (.string op.word) = some op := by
  cases op <;> rfl

@[simp] theorem BinaryOp.ofJson?_word (op : BinaryOp) : ofJson? (.string op.word) = some op := by
  cases op <;> rfl

attribute [local simp] ExprKind.jsonFields ExprKind.ofJson?

mutual

theorem Expr.ofJson?_toJson : (e : Expr) → (∀ leaf ∈ e.allLeaves, leaf.Writable) →
    Expr.ofJson? e.toJson = some e
  | .mk type constant kind, held => by
    simp only [Expr.allLeaves, List.forall_mem_append] at held
    obtain ⟨⟨typed, noted⟩, inside⟩ := held
    have back := ExprKind.ofJson?_jsonFields (.ofType type) (.ofOption Literal.toJson constant) kind
      inside
    simp only [Option.bind_eq_bind, Expr.toJson, Expr.ofJson?, Json.optional_ofType typed,
      Json.optional_tail (show ("constant" == "type") = false by decide),
      Json.optional_constant noted, Option.bind_some]
    rw [← Option.bind_assoc, back]
    rfl

theorem ExprKind.ofJson?_jsonFields (type constant : Json) :
    (kind : ExprKind) → (∀ leaf ∈ kind.allLeaves, leaf.Writable) →
      ((Json.object (("type", type) :: ("constant", constant) :: kind.jsonFields)).required "kind"
        fun v => v.val.asString?).bind (ExprKind.ofJson?
          (Json.object (("type", type) :: ("constant", constant) :: kind.jsonFields))) = some kind
  | .null, _ | .self, _ | .localVar _, _ => by
    simp (disch := decide)
  | .literal value, held => by
    simp only [ExprKind.allLeaves, List.forall_mem_cons] at held
    simp (disch := decide) [Literal.ofJson?_toJson held.1.2]
  | .field receiver ref, held => by
    simp only [ExprKind.allLeaves, List.forall_mem_append] at held
    have first := Receiver.ofJson?_toJson receiver held.1
    simp (disch := decide) [first, FieldRef.ofJson?_toJson held.2]
  | .invoke receiver ref args, held => by
    simp only [ExprKind.allLeaves, List.forall_mem_append] at held
    have first := Receiver.ofJson?_toJson receiver held.1.1
    have others := Json.listOf_written Expr.listToJson rfl (fun _ _ => rfl) (fun _ _ => rfl) args held.2
      fun item _ => Expr.ofJson?_toJson item
    simp (disch := decide) [first, MethodRef.ofJson?_toJson held.1.2, others]
  | .construct constructor args, held => by
    simp only [ExprKind.allLeaves, List.forall_mem_append] at held
    have others := Json.listOf_written Expr.listToJson rfl (fun _ _ => rfl) (fun _ _ => rfl) args held.2
      fun item _ => Expr.ofJson?_toJson item
    simp (disch := decide) [MethodRef.ofJson?_toJson held.1, others]
  | .newArray dims elems, held => by
    simp only [ExprKind.allLeaves, List.forall_mem_append] at held
    have first := Json.listOf_written Expr.listToJson rfl (fun _ _ => rfl) (fun _ _ => rfl) dims held.1
      fun item _ => Expr.ofJson?_toJson item
    simp (disch := decide) [first, Expr.optional_listToJson elems held.2]
  | .arrayLength inner, held | .unary _ inner, held | .cast inner, held => by
    rw [ExprKind.allLeaves] at held
    have inside := Expr.ofJson?_toJson inner held
    simp (disch := decide) [inside]
  | .index left right, held | .assign left right, held | .compoundAssign _ left right, held
  | .binary _ left right, held => by
    simp only [ExprKind.allLeaves, List.forall_mem_append] at held
    have first := Expr.ofJson?_toJson left held.1
    have second := Expr.ofJson?_toJson right held.2
    simp (disch := decide) [first, second]
  | .conditional cond yes no, held => by
    simp only [ExprKind.allLeaves, List.forall_mem_append] at held
    have first := Expr.ofJson?_toJson cond held.1.1
    have second := Expr.ofJson?_toJson yes held.1.2
    have third := Expr.ofJson?_toJson no held.2
    simp (disch := decide) [first, second, third]
  | .instanceOf inner type, held => by
    simp only [ExprKind.allLeaves, List.forall_mem_cons] at held
    have inside := Expr.ofJson?_toJson inner held.2
    simp (disch := decide) [inside, RefType.ofJson?_iff.mpr ⟨held.1.1, rfl⟩]
  | .classLiteral type, held => by
    rw [ExprKind.allLeaves] at held
    simp (disch := decide) [Json.optional_ofType held]

theorem Receiver.ofJson?_toJson : (receiver : Receiver) →
    (∀ leaf ∈ receiver.allLeaves, leaf.Writable) → Receiver.ofJson? receiver.toJson = some receiver
  | .implicit, _ | .self, _ | .super, _ => by
    rw [Receiver.ofJson?]
    rfl
  | .expr value, held => by
    rw [Receiver.allLeaves] at held
    rw [Receiver.toJson, Receiver.ofJson?]
    simp only [Json.single?, Expr.ofJson?_toJson value held, Option.map_some]

theorem Expr.optional_listToJson {key : String} {rest : List (String × Json)} :
    (elems : Option (List Expr)) → (∀ leaf ∈ Expr.optionalListLeaves elems, leaf.Writable) →
      (Json.object ((key, Expr.optionalListToJson elems) :: rest)).optional key
        (fun v => v.val.listOf fun w => Expr.ofJson? w.val) = some elems
  | none, _ => by
    rw [Expr.optionalListToJson, Json.optional_head]
    rfl
  | some es, held => by
    rw [Expr.optionalListLeaves] at held
    have others := Json.listOf_written Expr.listToJson rfl (fun _ _ => rfl) (fun _ _ => rfl) es held
      fun item _ => Expr.ofJson?_toJson item
    rw [Expr.optionalListToJson, Json.optional_head, others]
    rfl

end

end Expressions

section Statements

theorem Json.optional_expr {key : String} {rest : List (String × Json)} {e : Option Expr}
    (held : ∀ leaf ∈ e.toList.flatMap Expr.allLeaves, leaf.Writable) :
    (object ((key, ofOption Expr.toJson e) :: rest)).optional key (fun v => Expr.ofJson? v.val) =
      some e := by
  refine optional_ofOption (fun value => ?_) fun value member => Expr.ofJson?_toJson value ?_
  · cases value
    rw [Expr.toJson]
    rfl
  · cases member
    simpa using held

theorem Json.listOf_exprs {es : List Expr}
    (held : ∀ leaf ∈ es.flatMap Expr.allLeaves, leaf.Writable) :
    (array (es.map Expr.toJson)).listOf (fun w => Expr.ofJson? w.val) = some es :=
  listOf_map fun e member => Expr.ofJson?_toJson e fun leaf inside =>
    held leaf (List.mem_flatMap.mpr ⟨e, member, inside⟩)

attribute [local simp] StmtKind.jsonFields StmtKind.ofJson?

mutual

theorem Stmt.ofJson?_toJson : (s : Stmt) → (∀ leaf ∈ s.allLeaves, leaf.Writable) →
    Stmt.ofJson? s.toJson = some s
  | .mk line kind, held => by
    rw [Stmt.allLeaves] at held
    have back := StmtKind.ofJson?_jsonFields (.ofLine line) kind held
    simp only [Option.bind_eq_bind, Stmt.toJson, Stmt.ofJson?, Json.optional_ofLine, Option.bind_some]
    rw [← Option.bind_assoc, back]
    rfl

theorem StmtKind.ofJson?_jsonFields (line : Json) :
    (kind : StmtKind) → (∀ leaf ∈ kind.allLeaves, leaf.Writable) →
      ((Json.object (("line", line) :: kind.jsonFields)).required "kind"
        fun v => v.val.asString?).bind (StmtKind.ofJson?
          (Json.object (("line", line) :: kind.jsonFields))) = some kind
  | .empty, _ | .breakTo _, _ | .continueTo _, _ => by
    simp (disch := decide) [Json.optional_text]
  | .block stmts, held => by
    rw [StmtKind.allLeaves] at held
    have others := Json.listOf_written Stmt.listToJson rfl (fun _ _ => rfl) (fun _ _ => rfl) stmts held
      fun item _ => Stmt.ofJson?_toJson item
    simp (disch := decide) [others]
  | .declare var init, held => by
    simp only [StmtKind.allLeaves, List.forall_mem_append] at held
    simp (disch := decide) [VarDecl.ofJson?_toJson held.1, Json.optional_expr held.2]
  | .expr value, held | .raise value, held => by
    rw [StmtKind.allLeaves] at held
    simp (disch := decide) [Expr.ofJson?_toJson value held]
  | .branch cond yes no, held => by
    simp only [StmtKind.allLeaves, List.forall_mem_append] at held
    have second := Stmt.ofJson?_toJson yes held.1.2
    simp (disch := decide) [Expr.ofJson?_toJson cond held.1.1, second, Stmt.optional_toJson no held.2]
  | .whileLoop cond body, held | .doLoop body cond, held | .synchronized cond body, held => by
    simp only [StmtKind.allLeaves, List.forall_mem_append] at held
    have second := Stmt.ofJson?_toJson body held.2
    simp (disch := decide) [Expr.ofJson?_toJson cond held.1, second]
  | .forLoop init cond update body, held => by
    simp only [StmtKind.allLeaves, List.forall_mem_append] at held
    obtain ⟨⟨⟨starts, tests⟩, steps⟩, inside⟩ := held
    have first := Json.listOf_written Stmt.listToJson rfl (fun _ _ => rfl) (fun _ _ => rfl) init starts
      fun item _ => Stmt.ofJson?_toJson item
    have third := Stmt.ofJson?_toJson body inside
    simp (disch := decide) [first, Json.optional_expr tests, Json.listOf_exprs steps, third]
  | .labelled label body, held => by
    rw [StmtKind.allLeaves] at held
    have inner := Stmt.ofJson?_toJson body held
    simp (disch := decide) [inner]
  | .switch selector cases, held => by
    simp only [StmtKind.allLeaves, List.forall_mem_append] at held
    have others := Json.listOf_written Case.listToJson rfl (fun _ _ => rfl) (fun _ _ => rfl) cases held.2
      fun item _ => Case.ofJson?_toJson item
    simp (disch := decide) [Expr.ofJson?_toJson selector held.1, others]
  | .ret value, held => by
    rw [StmtKind.allLeaves] at held
    simp (disch := decide) [Json.optional_expr held]
  | .guarded body catches finalizer, held => by
    simp only [StmtKind.allLeaves, List.forall_mem_append] at held
    have first := Stmt.ofJson?_toJson body held.1.1
    have others := Json.listOf_written Catch.listToJson rfl (fun _ _ => rfl) (fun _ _ => rfl) catches held.1.2
      fun item _ => Catch.ofJson?_toJson item
    simp (disch := decide) [first, others, Stmt.optional_toJson finalizer held.2]

theorem Case.ofJson?_toJson : (c : Case) → (∀ leaf ∈ c.allLeaves, leaf.Writable) →
    Case.ofJson? c.toJson = some c
  | .mk labels isDefault body, held => by
    rw [Case.allLeaves] at held
    have inside := Json.listOf_written Stmt.listToJson rfl (fun _ _ => rfl) (fun _ _ => rfl) body held
      fun item _ => Stmt.ofJson?_toJson item
    have numbers : (Json.array (labels.map fun n => .int n.toInt)).listOf (fun w => w.val.asInt32?) =
        some labels := Json.listOf_map fun n _ => Json.asInt32?_int n
    simp (disch := decide) [Case.toJson, Case.ofJson?, Json.object?, Json.fields?, Json.asBool?,
      numbers, inside]

theorem Catch.ofJson?_toJson : (c : Catch) → (∀ leaf ∈ c.allLeaves, leaf.Writable) →
    Catch.ofJson? c.toJson = some c
  | .mk types param body, held => by
    simp only [Catch.allLeaves, List.forall_mem_append] at held
    have first := Json.listOf_ofNames held.1.1
    have second := VarDecl.ofJson?_toJson held.1.2
    have third := Stmt.ofJson?_toJson body held.2
    simp (disch := decide) [Catch.toJson, Catch.ofJson?, first, second, third]

theorem Stmt.optional_toJson {key : String} {rest : List (String × Json)} :
    (s : Option Stmt) → (∀ leaf ∈ Stmt.optionLeaves s, leaf.Writable) →
      (Json.object ((key, Stmt.optionToJson s) :: rest)).optional key
        (fun v => Stmt.ofJson? v.val) = some s
  | none, _ => by
    rw [Stmt.optionToJson, Json.optional_head]
    rfl
  | some (.mk line kind), held => by
    rw [Stmt.optionLeaves] at held
    rw [Stmt.optionToJson, Json.optional_head, Stmt.ofJson?_toJson _ held, Stmt.toJson]
    rfl

end

end Statements

section Declarations

variable {key : String} {rest : List (String × Json)}

theorem Json.optional_nesting {nesting : Option Nesting}
    (held : ∀ leaf ∈ nesting.toList.flatMap Nesting.allLeaves, leaf.Writable) :
    (object ((key, ofOption Nesting.toJson nesting) :: rest)).optional key
      (fun v => Nesting.ofJson? v.val) = some nesting := by
  refine optional_ofOption (fun _ => rfl) fun value member => Nesting.ofJson?_toJson ?_
  cases member
  simpa using held

theorem Json.optional_stmt {s : Option Stmt}
    (held : ∀ leaf ∈ s.toList.flatMap Stmt.allLeaves, leaf.Writable) :
    (object ((key, ofOption Stmt.toJson s) :: rest)).optional key (fun v => Stmt.ofJson? v.val) =
      some s := by
  refine optional_ofOption (fun value => ?_) fun value member => Stmt.ofJson?_toJson value ?_
  · cases value
    rw [Stmt.toJson]
    rfl
  · cases member
    simpa using held

theorem ClassData.ofJson?_toJson {data : ClassData} (held : ∀ leaf ∈ data.allLeaves, leaf.Writable) :
    ofJson? data.toJson = some data := by
  simp only [allLeaves, List.forall_mem_append] at held
  obtain ⟨⟨superclass, interfaces⟩, nesting⟩ := held
  simp (disch := decide) [toJson, ofJson?, Json.object?, Json.fields?, Json.asBool?,
    Json.optional_className superclass, Json.listOf_ofNames interfaces,
    Json.optional_nesting nesting]

theorem Member.ofJson?_toJson {item : Member} (held : ∀ leaf ∈ item.allLeaves, leaf.Writable) :
    ofJson? item.toJson = some item := by
  cases item with
  | field decl =>
    simp only [allLeaves, List.forall_mem_cons, List.forall_mem_append] at held
    obtain ⟨name, access, type, constant, init⟩ := held
    simp (disch := decide) [toJson, ofJson?, FieldDecl.ofJson?,
      UnqualifiedName.ofJson?_iff.mpr ⟨name.1, rfl⟩, AccessFlags.ofJson?_ofFlags access.1,
      FieldType.ofJson?_iff.mpr ⟨type.1, rfl⟩, Json.optional_constant constant,
      Json.optional_expr init, Json.optional_ofLine]
  | method decl =>
    simp only [allLeaves, List.forall_mem_cons, List.forall_mem_append] at held
    obtain ⟨name, access, ⟨⟨params, result⟩, exceptions⟩, body⟩ := held
    have vars : ((Json.array (decl.params.map VarDecl.toJson)).listOf fun w =>
        VarDecl.ofJson? w.val) = some decl.params :=
      Json.listOf_map fun var member => VarDecl.ofJson?_toJson fun leaf inside =>
        params leaf (List.mem_flatMap.mpr ⟨var, member, inside⟩)
    simp (disch := decide) [toJson, ofJson?, MethodDecl.ofJson?,
      UnqualifiedName.ofJson?_iff.mpr ⟨name.1, rfl⟩, AccessFlags.ofJson?_ofFlags access.1, vars,
      Json.optional_ofType result, Json.listOf_ofNames exceptions, Json.optional_stmt body,
      Json.optional_ofLine]
  | initializer decl =>
    have inner := Stmt.ofJson?_toJson decl.body held
    simp (disch := decide) [toJson, ofJson?, Initializer.ofJson?, Json.asBool?, inner]

theorem ClassDecl.ofJson?_toJson {decl : ClassDecl} (held : ∀ leaf ∈ decl.allLeaves, leaf.Writable) :
    ofJson? decl.toJson = some decl := by
  simp only [allLeaves, List.forall_mem_cons, List.forall_mem_append] at held
  obtain ⟨name, access, ⟨⟨superclass, interfaces⟩, nesting⟩, members⟩ := held
  have inside : ((Json.array (decl.members.map Member.toJson)).listOf fun w =>
      Member.ofJson? w.val) = some decl.members :=
    Json.listOf_map fun item member => Member.ofJson?_toJson fun leaf inside =>
      members leaf (List.mem_flatMap.mpr ⟨item, member, inside⟩)
  simp (disch := decide) [toJson, ofJson?, BinaryName.ofJson?_iff.mpr ⟨name.1, rfl⟩,
    AccessFlags.ofJson?_ofFlags access.1, Json.optional_className superclass,
    Json.listOf_ofNames interfaces, Json.optional_nesting nesting, inside]

theorem ClassData.mapOfJson?_toJson {known : List (BinaryName × ClassData)}
    (held : ∀ leaf ∈ known.flatMap fun (name, data) => Leaf.owner name :: data.allLeaves,
      leaf.Writable) :
    mapOfJson? (.object (known.map fun (name, data) => (name.text, data.toJson))) = some known := by
  simp only [mapOfJson?, Json.fields?, Option.bind_eq_bind, Option.bind_some]
  rw [Json.mapM_eq_some_iff, List.forall₂_map_left_iff, List.forall₂_same]
  rintro ⟨name, data⟩ member
  have here : ∀ leaf ∈ Leaf.owner name :: data.allLeaves, leaf.Writable := fun leaf inside =>
    held leaf (List.mem_flatMap.mpr ⟨(name, data), member, inside⟩)
  rw [List.forall_mem_cons] at here
  have parsed := BinaryName.parse_iff.mpr ⟨here.1.1, rfl⟩
  simp only [parsed, Except.toOption, ofJson?_toJson here.2, Option.bind_some, Option.pure_def]

theorem CompilationUnit.ofJson?_toJson_of_writable {unit : CompilationUnit}
    (held : ∀ leaf ∈ unit.allLeaves, leaf.Writable) : ofJson? unit.toJson = some unit := by
  simp only [allLeaves, List.forall_mem_append] at held
  obtain ⟨classes, known⟩ := held
  have inside : ((Json.array (unit.classes.map ClassDecl.toJson)).listOf fun w =>
      ClassDecl.ofJson? w.val) = some unit.classes :=
    Json.listOf_map fun decl member => ClassDecl.ofJson?_toJson fun leaf inside =>
      classes leaf (List.mem_flatMap.mpr ⟨decl, member, inside⟩)
  simp (disch := decide) [toJson, ofJson?, Json.optional_text, inside,
    ClassData.mapOfJson?_toJson known]

end Declarations

end ClassForge
