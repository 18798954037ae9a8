import Queuefy.Lib.Verdict
import Queuefy.Lib.Mapping

/-! # What a store is given of a payload and of an answer

The arguments of a run and the answer it is closed with are settled before any store sees them:
walked for the whole numbers no store keeps, written as JSON and read back, the answer with its
texts escaped first. `as_written` and `keepable` are those two, over any value a caller or a
handler can hand them: nested to any depth, and made of the built-in types or of classes derived
from them.

What is settled twice is settled once, except where a whole number of a derived class passes the
walk: the walk asks for the type and the writer writes the number, so the reader answers a whole
number the walk refuses the next time.
-/

namespace Queuefy.Json

/-! ## Values -/

/-- A text, character by character. Python keeps a lone surrogate as it keeps any other. -/
abbrev Text := List Nat

instance : LawfulBEq Text := inferInstance

/-- The characters UTF-8 writes nothing for. -/
def surrogate (c : Nat) : Bool :=
  decide (0xD800 ≤ c) && decide (c ≤ 0xDFFF)

/--
The finite floats, by what `float.__repr__` spells each as, which is text of the printable
characters of ASCII.
-/
class Floats (F : Type) where
  spelled : F → Text
  printable : ∀ x, ∀ c ∈ spelled x, 32 ≤ c ∧ c < 127

/--
What a mapping is keyed by. The keys JSON has a name for are told apart by what they are, and
`nan`, the infinities and every other object by a number of their own.
-/
inductive Key (F : Type) where
  | none
  | bool (truth : Bool)
  | int (derived : Bool) (n : Int)
  | float (x : F)
  | nonfinite (id : Nat)
  | str (derived : Bool) (t : Text)
  | other (id : Nat)
  deriving DecidableEq

inductive Form where
  | list
  | tuple
  deriving DecidableEq

/--
A value as python holds it. `derived` says that its class derives from the one named, with nothing
of that one redefined; `nonfinite` is `nan` or an infinity, `other` anything the writer has no
words for, and `itself` a container met again inside itself.
-/
inductive Value (F : Type) where
  | none
  | bool (truth : Bool)
  | int (derived : Bool) (n : Int)
  | float (x : F)
  | nonfinite
  | str (derived : Bool) (t : Text)
  | sequence (form : Form) (derived : Bool) (items : List (Value F))
  | dict (derived : Bool) (entries : List (Key F × Value F))
  | other
  | itself

/-- A text of JSON, by what it spells: an object may name a member twice. -/
inductive Doc (F : Type) where
  | null
  | bool (truth : Bool)
  | int (n : Int)
  | float (x : F)
  | text (t : Text)
  | array (items : List (Doc F))
  | object (members : List (Text × Doc F))

/-- What the walks, the writer and the encoder raise. -/
inductive Refusal where
  | queueError
  | typeError
  | valueError
  | recursionError
  deriving DecidableEq

/--
How far the interpreter goes where the settling is called: how deep each of the recursions may
get, and how many digits it writes of a whole number, which is no limit at all when it is zero.
-/
structure Limits where
  walk : Nat
  escape : Nat
  write : Nat
  digits : Nat

variable {F : Type}

/--
A value is reached by induction: what holds of the items of a sequence and of what a mapping holds
holds of the two.
-/
@[elab_as_elim]
theorem Value.induct {P : Value F → Prop} (none : P .none) (bool : ∀ truth, P (.bool truth))
    (int : ∀ derived n, P (.int derived n)) (float : ∀ x, P (.float x)) (nonfinite : P .nonfinite)
    (str : ∀ derived t, P (.str derived t))
    (sequence : ∀ form derived items, (∀ item ∈ items, P item) →
      P (.sequence form derived items))
    (dict : ∀ derived entries, (∀ entry ∈ entries, P entry.2) → P (.dict derived entries))
    (other : P .other) (itself : P .itself) (v : Value F) : P v :=
  @Value.rec F P (fun items => ∀ item ∈ items, P item)
    (fun entries => ∀ entry ∈ entries, P entry.2) (fun entry => P entry.2)
    none bool int float nonfinite str sequence dict other itself
    (fun _ h => absurd h List.not_mem_nil)
    (fun _ _ hfirst hrest _ h => (List.mem_cons.1 h).elim (fun heq => heq ▸ hfirst) (hrest _))
    (fun _ h => absurd h List.not_mem_nil)
    (fun _ _ hfirst hrest _ h => (List.mem_cons.1 h).elim (fun heq => heq ▸ hfirst) (hrest _))
    (fun _ _ h => h) v

/-! ## The walk -/

def wholeFloor : Int := -(2 ^ 63)

def wholeCeiling : Int := 2 ^ 64 - 1

/-- A whole number every store keeps inside JSON. -/
def whole (n : Int) : Bool :=
  decide (wholeFloor ≤ n) && decide (n ≤ wholeCeiling)

/-- Whether the interpreter writes a whole number down. -/
def Limits.spells (limits : Limits) (n : Int) : Bool :=
  decide (limits.digits = 0) || decide ((Nat.toDigits 10 n.natAbs).length ≤ limits.digits)

mutual

/--
`exact`, with the calls the interpreter has left. The refusal spells the number it refuses, which
is refused itself when it has too many digits.
-/
def exact (limits : Limits) : Nat → Value F → Except Refusal Unit
  | 0, _ => .error .recursionError
  | calls + 1, .dict _ entries => exactHeld limits calls entries
  | calls + 1, .sequence _ _ items => exactItems limits calls items
  | _ + 1, .int false n =>
      if whole n then .ok ()
      else .error (if limits.spells n then .queueError else .valueError)
  | _ + 1, .itself => .error .recursionError
  | _ + 1, _ => .ok ()

def exactItems (limits : Limits) (calls : Nat) : List (Value F) → Except Refusal Unit
  | [] => .ok ()
  | item :: rest => do
      exact limits calls item
      exactItems limits calls rest

def exactHeld (limits : Limits) (calls : Nat) : List (Key F × Value F) → Except Refusal Unit
  | [] => .ok ()
  | (_, held) :: rest => do
      exact limits calls held
      exactHeld limits calls rest

end

theorem exactItems_ok {limits : Limits} {calls : Nat} {items : List (Value F)} :
    exactItems limits calls items = .ok () ↔ ∀ item ∈ items, exact limits calls item = .ok () := by
  induction items with
  | nil => simp [exactItems]
  | cons item rest ih =>
      rw [exactItems, List.forall_mem_cons, ← ih]
      cases hitem : exact limits calls item with
      | error refusal => simp [bind, Except.bind]
      | ok _ => simp [bind, Except.bind]

theorem exactHeld_ok {limits : Limits} {calls : Nat} {entries : List (Key F × Value F)} :
    exactHeld limits calls entries = .ok () ↔
      ∀ entry ∈ entries, exact limits calls entry.2 = .ok () := by
  induction entries with
  | nil => simp [exactHeld]
  | cons entry rest ih =>
      rw [exactHeld, List.forall_mem_cons, ← ih]
      cases hentry : exact limits calls entry.2 with
      | error refusal => simp [bind, Except.bind]
      | ok _ => simp [bind, Except.bind]

/-- A sequence passes the walk when every item does, a call further down. -/
theorem exact_sequence {limits : Limits} {calls : Nat} {form : Form} {derived : Bool}
    {items : List (Value F)} : exact limits calls (.sequence form derived items) = .ok () ↔
      ∃ rest, calls = rest + 1 ∧ ∀ item ∈ items, exact limits rest item = .ok () := by
  cases calls with
  | zero => simp [exact]
  | succ rest => simp [exact, exactItems_ok]

/-- A mapping passes the walk when everything it holds does, a call further down. -/
theorem exact_dict {limits : Limits} {calls : Nat} {derived : Bool}
    {entries : List (Key F × Value F)} : exact limits calls (.dict derived entries) = .ok () ↔
      ∃ rest, calls = rest + 1 ∧ ∀ entry ∈ entries, exact limits rest entry.2 = .ok () := by
  cases calls with
  | zero => simp [exact]
  | succ rest => simp [exact, exactHeld_ok]

/-- What is neither a container nor a whole number past the range passes the walk. -/
theorem exact_int {limits : Limits} {calls : Nat} {derived : Bool} {n : Int} :
    exact limits calls (.int derived n : Value F) = .ok () ↔
      0 < calls ∧ (derived = false → whole n = true) := by
  cases calls with
  | zero => simp [exact]
  | succ rest =>
      cases derived with
      | true => simp [exact]
      | false => by_cases h : whole n = true <;> simp [exact, h]

/-! ## The writer and the reader -/

/-- A whole number as `int.__repr__` spells it. -/
def decimal (n : Int) : Text :=
  (if n < 0 then [45] else []) ++ (Nat.toDigits 10 n.natAbs).map Char.toNat

theorem decimal_printable {n : Int} {c : Nat} (h : c ∈ decimal n) : 32 ≤ c ∧ c < 127 := by
  rcases List.mem_append.1 h with hsign | hdigits
  · by_cases hn : n < 0
    · rw [if_pos hn, List.mem_singleton] at hsign
      omega
    · rw [if_neg hn] at hsign
      exact absurd hsign List.not_mem_nil
  · rcases List.mem_map.1 hdigits with ⟨digit, hmem, rfl⟩
    have hdigit : digit.isDigit = true :=
      Nat.isDigit_of_mem_toDigits (by decide) (by decide) hmem
    have hrange : 48 ≤ digit.toNat ∧ digit.toNat ≤ 57 := by
      simpa [Char.isDigit, UInt32.le_iff_toNat_le] using hdigit
    omega

/-- The name JSON has for a key, refused where it has none. -/
def keyName [Floats F] (limits : Limits) : Key F → Except Refusal Text
  | .none => .ok [110, 117, 108, 108]
  | .bool true => .ok [116, 114, 117, 101]
  | .bool false => .ok [102, 97, 108, 115, 101]
  | .int _ n => if limits.spells n then .ok (decimal n) else .error .valueError
  | .float x => .ok (Floats.spelled x)
  | .nonfinite _ => .error .valueError
  | .str _ t => .ok t
  | .other _ => .error .typeError

mutual

/--
`json.dumps` with `allow_nan=False`, and with the levels of containers it has left. Whatever
derives from a class it writes is written as that class is.
-/
def dumps [Floats F] (limits : Limits) : Nat → Value F → Except Refusal (Doc F)
  | _, .none => .ok .null
  | _, .bool truth => .ok (.bool truth)
  | _, .int _ n => if limits.spells n then .ok (.int n) else .error .valueError
  | _, .float x => .ok (.float x)
  | _, .nonfinite => .error .valueError
  | _, .str _ t => .ok (.text t)
  | 0, .sequence _ _ _ => .error .recursionError
  | levels + 1, .sequence _ _ items => do
      let items ← dumpsItems limits levels items
      return .array items
  | 0, .dict _ _ => .error .recursionError
  | levels + 1, .dict _ entries => do
      let members ← dumpsEntries limits levels entries
      return .object members
  | _, .other => .error .typeError
  | _, .itself => .error .valueError

def dumpsItems [Floats F] (limits : Limits) (levels : Nat) :
    List (Value F) → Except Refusal (List (Doc F))
  | [] => .ok []
  | item :: rest => do
      let item ← dumps limits levels item
      let rest ← dumpsItems limits levels rest
      return item :: rest

def dumpsEntries [Floats F] (limits : Limits) (levels : Nat) :
    List (Key F × Value F) → Except Refusal (List (Text × Doc F))
  | [] => .ok []
  | (key, held) :: rest => do
      let name ← keyName limits key
      let held ← dumps limits levels held
      let rest ← dumpsEntries limits levels rest
      return (name, held) :: rest

end

mutual

/-- Whether every character of every text in a text of JSON is one that is allowed. -/
def Doc.every (allowed : Nat → Bool) : Doc F → Bool
  | .text t => t.all allowed
  | .array items => everyItems allowed items
  | .object members => everyMembers allowed members
  | .null | .bool _ | .int _ | .float _ => true

def Doc.everyItems (allowed : Nat → Bool) : List (Doc F) → Bool
  | [] => true
  | item :: rest => item.every allowed && everyItems allowed rest

def Doc.everyMembers (allowed : Nat → Bool) : List (Text × Doc F) → Bool
  | [] => true
  | (name, held) :: rest => name.all allowed && held.every allowed && everyMembers allowed rest

end

/-- What `written.encode("utf-8")` takes. -/
def Doc.encodes (doc : Doc F) : Bool :=
  doc.every fun c => !surrogate c

mutual

/-- `json.loads`: of two members of one name the later is the one an object is read back with. -/
def loads : Doc F → Value F
  | .null => .none
  | .bool truth => .bool truth
  | .int n => .int false n
  | .float x => .float x
  | .text t => .str false t
  | .array items => .sequence .list false (loadsItems items)
  | .object members =>
      .dict false ((Mapping.build (loadsMembers members)).map fun member =>
        (.str false member.1, member.2))

def loadsItems : List (Doc F) → List (Value F)
  | [] => []
  | item :: rest => loads item :: loadsItems rest

def loadsMembers : List (Text × Doc F) → List (Text × Value F)
  | [] => []
  | (name, held) :: rest => (name, loads held) :: loadsMembers rest

end

theorem dumpsItems_eq [Floats F] (limits : Limits) (levels : Nat) (items : List (Value F)) :
    dumpsItems limits levels items = items.mapM (dumps limits levels) := by
  induction items with
  | nil => rfl
  | cons item rest ih => rw [dumpsItems, List.mapM_cons, ih]

theorem dumpsEntries_eq [Floats F] (limits : Limits) (levels : Nat)
    (entries : List (Key F × Value F)) :
    dumpsEntries limits levels entries = entries.mapM fun entry => do
      let name ← keyName limits entry.1
      let held ← dumps limits levels entry.2
      return (name, held) := by
  induction entries with
  | nil => rfl
  | cons entry rest ih => rw [dumpsEntries, List.mapM_cons, ih]; simp

theorem everyItems_eq (allowed : Nat → Bool) (items : List (Doc F)) :
    Doc.everyItems allowed items = items.all (Doc.every allowed) := by
  induction items with
  | nil => rfl
  | cons item rest ih => rw [Doc.everyItems, List.all_cons, ih]

theorem everyMembers_eq (allowed : Nat → Bool) (members : List (Text × Doc F)) :
    Doc.everyMembers allowed members =
      members.all fun member => member.1.all allowed && member.2.every allowed := by
  induction members with
  | nil => rfl
  | cons member rest ih => rw [Doc.everyMembers, List.all_cons, ih]

theorem loadsItems_eq (items : List (Doc F)) : loadsItems items = items.map loads := by
  induction items with
  | nil => rfl
  | cons item rest ih => rw [loadsItems, List.map_cons, ih]

theorem loadsMembers_eq (members : List (Text × Doc F)) :
    loadsMembers members = Mapping.read loads members := by
  induction members with
  | nil => rfl
  | cons member rest ih => rw [loadsMembers, Mapping.read_cons, ih]

/-! ## The arguments of a run -/

/-- The writing `as_written` guards: the walk, the text of JSON, and its encoding. -/
def written [Floats F] (limits : Limits) (payload : Value F) : Except Refusal (Doc F) := do
  exact limits limits.walk payload
  let doc ← dumps limits limits.write payload
  if doc.encodes then return doc
  else throw .valueError

/-- `as_written`. -/
def asWritten [Floats F] (limits : Limits) (payload : Value F) : Except Refusal (Value F) :=
  match payload with
  | .dict _ _ =>
      match written limits payload with
      | .error refusal =>
          if refusal ∈ [.typeError, .valueError, .recursionError] then .error .queueError
          else .error refusal
      | .ok doc => .ok (loads doc)
  | _ => .error .queueError

/-! ## The answer of a handler -/

/-- A digit of the spelling python gives a lone surrogate. -/
def hexDigit (d : Nat) : Nat :=
  if d < 10 then 48 + d else 87 + d

/-- What `backslashreplace` writes of a character: a lone surrogate becomes the text of it. -/
def backslashed (c : Nat) : Text :=
  if surrogate c then
    [92, 117, hexDigit (c / 4096), hexDigit (c / 256 % 16), hexDigit (c / 16 % 16),
      hexDigit (c % 16)]
  else [c]

/-- `storable`. -/
def storable (t : Text) : Text :=
  (t.flatMap backslashed).flatMap fun c => if c = 0 then [92, 120, 48, 48] else [c]

/-- What `escaped` makes of a key. One that JSON has no name for is left to the writer. -/
def escapedKey : Key F → Key F
  | .str _ t => .str false (storable t)
  | key => key

/-- A mapping rebuilt with its keys escaped: of two that come out as one the later is held. -/
def rekeyed [DecidableEq F] {α : Type} (entries : List (Key F × α)) : List (Key F × α) :=
  Mapping.build (Mapping.rename escapedKey entries)

mutual

/-- `escaped`, with the calls the interpreter has left. -/
def escaped [DecidableEq F] : Nat → Value F → Except Refusal (Value F)
  | 0, _ => .error .recursionError
  | _ + 1, .str _ t => .ok (.str false (storable t))
  | calls + 1, .dict _ entries => do
      let entries ← escapedEntries calls entries
      return .dict false (rekeyed entries)
  | calls + 1, .sequence form _ items => do
      let items ← escapedItems calls items
      return .sequence form false items
  | _ + 1, .itself => .error .recursionError
  | _ + 1, v => .ok v

def escapedItems [DecidableEq F] (calls : Nat) :
    List (Value F) → Except Refusal (List (Value F))
  | [] => .ok []
  | item :: rest => do
      let item ← escaped calls item
      let rest ← escapedItems calls rest
      return item :: rest

def escapedEntries [DecidableEq F] (calls : Nat) :
    List (Key F × Value F) → Except Refusal (List (Key F × Value F))
  | [] => .ok []
  | (key, held) :: rest => do
      let held ← escaped calls held
      let rest ← escapedEntries calls rest
      return (key, held) :: rest

end

theorem escapedItems_eq [DecidableEq F] (calls : Nat) (items : List (Value F)) :
    escapedItems calls items = items.mapM (escaped calls) := by
  induction items with
  | nil => rfl
  | cons item rest ih => rw [escapedItems, List.mapM_cons, ih]

theorem escapedEntries_eq [DecidableEq F] (calls : Nat) (entries : List (Key F × Value F)) :
    escapedEntries calls entries = entries.mapM fun entry => do
      let held ← escaped calls entry.2
      return (entry.1, held) := by
  induction entries with
  | nil => rfl
  | cons entry rest ih => rw [escapedEntries, List.mapM_cons, ih]; simp

/-- `keepable`. -/
def keepable [DecidableEq F] [Floats F] (limits : Limits) (answer : Value F) :
    Except Refusal (Value F) := do
  exact limits limits.walk answer
  let answer ← escaped limits.escape answer
  let doc ← dumps limits limits.write answer
  return loads doc

/-- What `Worker.answered` catches of the settling. -/
def answeredCatches : List Refusal :=
  [.typeError, .valueError, .recursionError, .queueError]

end Queuefy.Json
