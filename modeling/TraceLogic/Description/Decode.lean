import TraceLogic.Description.Basic
import TraceLogic.Description.Refusal
import TraceLogic.Json.Reader

/-!
# Reading descriptions

The JSON form of a description. Objects with fixed fields may also be written as arrays of their
fields; alternatives are objects with one member, whose name is the alternative. Trees are gone
through in the order of the text, so that the first fault in the text is the one reported.

At most `nestingLimit` brackets may be open at once. What is passed over does not count, except
inside the target of an assignment. The readers below take the number of brackets that may still be
opened.
-/

namespace TraceLogic

namespace Description

/-- The result of reading a part of a description. -/
abbrev Decoded (α : Type) := Except Refusal α

/-- How many brackets may be open at once. -/
def nestingLimit : Nat := 127

/-- Refuses at a place. -/
def refuse {α : Type} (cause : Refusal.Cause) (read : Nat) : Decoded α := .error ⟨cause, read⟩

/-- Goes on where the text did, or reports its break. -/
def through {α : Type} : Except Json.Break α → Decoded α
  | .ok a => .ok a
  | .error b => refuse (.malformed b.cause) b.read

/-- Refuses a value of the wrong type. -/
def mistyped {α : Type} (expected : String) : Json → Decoded α
  | .null stop => refuse (.wrongType "null" expected) stop
  | .boolean value stop =>
    refuse (.wrongType ("boolean " ++ Refusal.quoted (if value then "true" else "false")) expected)
      stop
  | .number value stop =>
    match value.integer? with
    | some n => refuse (.wrongType ("integer " ++ Refusal.quoted n.repr) expected) stop
    | none =>
      if value.outOfRange then refuse (.malformed .numberRange) stop
      else refuse (.wrongType "floating point" expected) stop
  | .string (some value) stop => refuse (.wrongType ("string " ++ value) expected) stop
  | .string none stop => refuse (.malformed .loneSurrogate) stop
  | .array _ _ => refuse (.wrongType "sequence" expected) 0
  | .object _ _ => refuse (.wrongType "map" expected) 0
  | .broken b => refuse (.malformed b.cause) b.read

/-- Refuses to open one more bracket. -/
def tooDeep {α : Type} : Decoded α := refuse (.malformed .tooDeep) 0

/-- Reads a string. -/
def text : Json → Decoded String
  | .string (some value) _ => .ok value
  | j => mistyped "a string" j

/-- Reads a truth value. -/
def flag : Json → Decoded Bool
  | .boolean value _ => .ok value
  | j => mistyped "a boolean" j

/-- Reads an integer that fits into 64 bits with a sign. -/
def integer : Json → Decoded Int
  | .number value stop =>
    match value.integer? with
    | some n =>
      if -0x8000000000000000 ≤ n ∧ n < 0x8000000000000000 then .ok n
      else mistyped "i64" (.number value stop)
    | none => mistyped "i64" (.number value stop)
  | j => mistyped "i64" j

/-- Reads all items of an array. -/
def items {α : Type} (item : Json → Decoded α) : List Json → Decoded (List α)
  | [] => .ok []
  | j :: rest => do
    let a ← item j
    let as ← items item rest
    pure (a :: as)

/-- Reads an array of any length. -/
def list {α : Type} (item : Json → Decoded α) : Json → Decoded (List α)
  | .array js close => do
    let as ← items item js
    let _ ← through close
    pure as
  | j => mistyped "a sequence" j

/-- Reads an array of two items. -/
def pair {α β : Type} (first : Json → Decoded α) (second : Json → Decoded β) :
    Json → Decoded (α × β)
  | .array [] close => do
    let _ ← through close
    refuse .wrongLength 0
  | .array [j] close => do
    let _ ← first j
    let _ ← through close
    refuse .wrongLength 0
  | .array (j :: k :: rest) close => do
    let a ← first j
    let b ← second k
    if rest.isEmpty then
      let _ ← through close
      pure (a, b)
    else refuse (.malformed .trailingCharacters) 0
  | j => mistyped "a tuple of size 2" j

/-- The name of a member. -/
def keyName (key : Json.Key) : Decoded String :=
  match key.name with
  | some name => .ok name
  | none => refuse (.malformed .loneSurrogate) key.stop

/-- Reads an alternative: an object with one member, named for the alternative. The name must be
there, so a text that ends in front of it lacks a value. -/
def variant {α : Type} (names : List String) (body : String → Json → Decoded α) :
    Json → Decoded α
  | .object [] (.ok _) => refuse (.malformed .valueExpected) 0
  | .object [] (.error b) =>
    refuse (.malformed (if b.cause = .endInObject then .endInValue else b.cause)) b.read
  | .object ((key, value) :: rest) close => do
    let name ← keyName key
    if names.contains name then
      let a ← body name value
      if rest.isEmpty then
        let _ ← through close
        pure a
      else refuse (.malformed .valueExpected) 0
    else refuse (.unknownVariant name names) key.stop
  | .string (some name) stop =>
    if names.contains name then refuse (.wrongType "unit variant" "a variant with content") stop
    else refuse (.unknownVariant name names) stop
  | j => mistyped "an alternative" j

/-- Reads the members of an object into a record. Fields that are not known are passed over, or
refused where nothing else is allowed; no field may be given twice. -/
def members {σ : Type} (fields : List String) (closed : Bool)
    (set : σ → String → Json → Decoded σ) :
    List String → σ → List (Json.Key × Json) → Decoded σ
  | _, s, [] => .ok s
  | seen, s, (key, value) :: rest => do
    let name ← keyName key
    if fields.contains name then
      if seen.contains name then refuse (.duplicateField name) key.next
      else
        let s ← set s name value
        members fields closed set (name :: seen) s rest
    else if closed then refuse (.unknownField name fields) key.next
    else members fields closed set seen s rest

/-- Reads the items of an array into the fields of a record. -/
def positions {σ : Type} (set : σ → String → Json → Decoded σ) :
    List String → σ → List Json → Decoded σ
  | _, s, [] => .ok s
  | [], _, _ :: _ => refuse (.malformed .trailingCharacters) 0
  | field :: fields, s, j :: rest => do
    let s ← set s field j
    positions set fields s rest

/-- Reads an object with fixed fields, or an array of them. The record that results is checked for
missing fields at the end. -/
def record {σ α : Type} (fields : List String) (closed : Bool) (initial : σ)
    (set : σ → String → Json → Decoded σ) (finish : σ → Except String α) : Json → Decoded α
  | .object ms close => do
    let s ← members fields closed set [] initial ms
    let stop ← through close
    match finish s with
    | .ok a => pure a
    | .error name => refuse (.missingField name) stop
  | .array js close => do
    let s ← positions set fields initial js
    let stop ← through close
    match finish s with
    | .ok a => pure a
    | .error _ => refuse .wrongLength stop
  | j => mistyped "a record" j

/-- Opens a bracket if one more may be open. -/
def opening {α : Type} (depth : Nat) (body : Nat → Decoded α) : Decoded α :=
  match depth with
  | 0 => tooDeep
  | d + 1 => body d

/-- The alternatives of an integer expression. -/
def intNames : List String := ["const", "var", "read", "add", "sub", "mul", "neg"]

/-- Reads an integer expression. -/
def intExpr : Nat → Json → Decoded (IntExpr String)
  | 0, .object _ _ => tooDeep
  | 0, j => mistyped "an alternative" j
  | d + 1, j =>
    let binary (op : ArithOp) (value : Json) : Decoded (IntExpr String) :=
      match d with
      | 0 => mistyped "a tuple of size 2" value
      | d + 1 => do
        let (lhs, rhs) ← pair (intExpr d) (intExpr d) value
        pure (.arith op lhs rhs)
    variant intNames (fun name value =>
      match name with
      | "const" => do
        let n ← integer value
        pure (.literal n)
      | "var" => do
        let x ← text value
        pure (.variable x)
      | "read" =>
        match d with
        | 0 => mistyped "a tuple of size 2" value
        | d + 1 => do
          let (a, index) ← pair text (intExpr d) value
          pure (.element a index)
      | "add" => binary .add value
      | "sub" => binary .sub value
      | "mul" => binary .mul value
      | _ => do
        let operand ← intExpr d value
        pure (.negate operand)) j

/-- The alternatives of a Boolean expression. -/
def boolNames : List String := ["bool", "lt", "le", "gt", "ge", "eq", "ne", "and", "or", "not"]

/-- Reads a Boolean expression. -/
def boolExpr : Nat → Json → Decoded (BoolExpr String)
  | 0, .object _ _ => tooDeep
  | 0, j => mistyped "an alternative" j
  | d + 1, j =>
    let compare (op : Comparison) (value : Json) : Decoded (BoolExpr String) :=
      match d with
      | 0 => mistyped "a tuple of size 2" value
      | d + 1 => do
        let (lhs, rhs) ← pair (intExpr d) (intExpr d) value
        pure (.compare op lhs rhs)
    let junction (op : Junction) (value : Json) : Decoded (BoolExpr String) :=
      match d with
      | 0 => mistyped "a sequence" value
      | d + 1 => do
        let parts ← list (boolExpr d) value
        pure (.junction op parts)
    variant boolNames (fun name value =>
      match name with
      | "bool" => do
        let b ← flag value
        pure (.constant b)
      | "lt" => compare .less value
      | "le" => compare .lessEq value
      | "gt" => compare .greater value
      | "ge" => compare .greaterEq value
      | "eq" => compare .equal value
      | "ne" => compare .notEqual value
      | "and" => junction .all value
      | "or" => junction .any value
      | _ => do
        let operand ← boolExpr d value
        pure (.not operand)) j

mutual

/-- Checks that a value can be kept as a whole: no break, no string without characters, no number
out of range, and no bracket too many. -/
def whole : Nat → Json → Decoded Unit
  | _, .null _ => .ok ()
  | _, .boolean _ _ => .ok ()
  | _, .number value stop =>
    if value.outOfRange then refuse (.malformed .numberRange) stop else .ok ()
  | _, .string (some _) _ => .ok ()
  | _, .string none stop => refuse (.malformed .loneSurrogate) stop
  | 0, .array _ _ => tooDeep
  | d + 1, .array js close => do
    wholeItems d js
    let _ ← through close
  | 0, .object _ _ => tooDeep
  | d + 1, .object ms close => do
    wholeMembers d ms
    let _ ← through close
  | _, .broken b => refuse (.malformed b.cause) b.read

/-- Checks that the items of an array can be kept as a whole. -/
def wholeItems : Nat → List Json → Decoded Unit
  | _, [] => .ok ()
  | d, j :: rest => do
    whole d j
    wholeItems d rest

/-- Checks that the members of an object can be kept as a whole. -/
def wholeMembers : Nat → List (Json.Key × Json) → Decoded Unit
  | _, [] => .ok ()
  | d, (key, j) :: rest => do
    let _ ← keyName key
    whole d j
    wholeMembers d rest

end

/-- Reads the target of an assignment: a name, or an object with an array and an index. The target
is read as a whole before it is looked at, so that only its own faults are told apart. -/
def target (depth : Nat) (j : Json) : Decoded (Target String) := do
  whole depth j
  let read : Decoded (Target String) :=
    match j with
    | .string (some name) _ => pure (.scalar name)
    | .object ms _ => do
      let (array?, index?) ← members ["array", "index"] false
        (fun (s : Option String × Option (IntExpr String)) name value =>
          match name with
          | "array" => do
            let a ← text value
            pure (some a, s.2)
          | _ => do
            let i ← intExpr (depth - 1) value
            pure (s.1, some i)) [] (none, none) ms
      match array?, index? with
      | some a, some i => pure (.element a i)
      | _, _ => refuse .noTarget 0
    | _ => refuse .noTarget 0
  match read with
  | .ok t => pure t
  | .error _ => refuse .noTarget 0

/-- The alternatives of a statement. -/
def commandNames : List String := ["assign", "if", "while", "skip"]

/-- The fields of a statement while it is read. -/
structure CommandFields where
  target : Option (Target String) := none
  value : Option (IntExpr String) := none
  condition : Option (BoolExpr String) := none
  first : List Command := []
  second : List Command := []

/-- Reads the content of a statement of a kind, and its blocks with the given reader. -/
def commandBody (depth : Nat) (block : Json → Decoded (List Command)) (name : String)
    (value : Json) : Decoded Command :=
  if name = "skip" then
    match value with
    | .null _ => pure .skip
    | _ => mistyped "unit" value
  else
    match depth with
    | 0 => mistyped "a record" value
    | d + 1 =>
      match name with
      | "assign" =>
        record ["lhs", "rhs"] false ({} : CommandFields)
          (fun s field j =>
            match field with
            | "lhs" => do
              let t ← target d j
              pure { s with target := some t }
            | _ => do
              let e ← intExpr d j
              pure { s with value := some e })
          (fun s =>
            match s.target, s.value with
            | some t, some e => .ok (.assign t e)
            | none, _ => .error "lhs"
            | _, none => .error "rhs") value
      | "if" =>
        record ["cond", "then", "else"] false ({} : CommandFields)
          (fun s field j =>
            match field with
            | "cond" => do
              let b ← boolExpr d j
              pure { s with condition := some b }
            | "then" => do
              let cs ← block j
              pure { s with first := cs }
            | _ => do
              let cs ← block j
              pure { s with second := cs })
          (fun s =>
            match s.condition with
            | some b => .ok (.branch b s.first s.second)
            | none => .error "cond") value
      | _ =>
        record ["cond", "body"] false ({} : CommandFields)
          (fun s field j =>
            match field with
            | "cond" => do
              let b ← boolExpr d j
              pure { s with condition := some b }
            | _ => do
              let cs ← block j
              pure { s with first := cs })
          (fun s =>
            match s.condition with
            | some b => .ok (.loop b s.first)
            | none => .error "cond") value

/-- Reads a statement. -/
def command : Nat → Json → Decoded Command
  | _, .string (some "skip") _ => pure .skip
  | 0, .object _ _ => tooDeep
  | 0, j => mistyped "an alternative" j
  | d + 1, j =>
    let block (value : Json) : Decoded (List Command) :=
      match d with
      | d + 2 => list (command d) value
      | _ => mistyped "a sequence" value
    variant commandNames (commandBody d block) j

/-- Reads the declaration of a variable. -/
def variableEntry (depth : Nat) (j : Json) : Decoded VariableEntry :=
  opening depth (fun _ =>
    record ["name", "array", "constant"] true ((none, false, false) : Option String × Bool × Bool)
      (fun s field j =>
        match field with
        | "name" => do
          let name ← text j
          pure (some name, s.2)
        | "array" => do
          let b ← flag j
          pure (s.1, b, s.2.2)
        | _ => do
          let b ← flag j
          pure (s.1, s.2.1, b))
      (fun s =>
        match s with
        | (some name, isArray, isConstant) => .ok ⟨name, isArray, isConstant⟩
        | (none, _) => .error "name") j)

/-- Reads a function. -/
def functionEntry (depth : Nat) (j : Json) : Decoded FunctionEntry :=
  opening depth (fun d =>
    record ["name", "variables", "statements", "postcondition"] true
      ((none, ⟨"", [], [], none⟩) : Option String × FunctionEntry)
      (fun (named, f) field j =>
        match field with
        | "name" => do
          let name ← text j
          pure (some name, f)
        | "variables" => do
          let vs ← opening d (fun d => list (variableEntry d) j)
          pure (named, { f with declared := vs })
        | "statements" => do
          let cs ← opening d (fun d => list (command d) j)
          pure (named, { f with commands := cs })
        | _ =>
          match j with
          | .null _ => pure (named, { f with postcondition := none })
          | _ => do
            let b ← boolExpr d j
            pure (named, { f with postcondition := some b }))
      (fun (named, f) =>
        match named with
        | some name => .ok { f with name }
        | none => .error "name") j)

/-- Reads a description. -/
def ofJson (depth : Nat) (j : Json) : Decoded Description :=
  opening depth (fun d =>
    record ["functions"] true (none : Option (List FunctionEntry))
      (fun _ _ j => do
        let fs ← opening d (fun d => list (functionEntry d) j)
        pure (some fs))
      (fun fs =>
        match fs with
        | some fs => .ok ⟨fs⟩
        | none => .error "functions") j)

/-- Reads the text of a description. -/
def parse (source : String) : Decoded Description := do
  let (j, stop) := Json.read source
  let d ← ofJson nestingLimit j
  match stop with
  | none => pure d
  | some b => refuse (.malformed b.cause) b.read

end Description

end TraceLogic
