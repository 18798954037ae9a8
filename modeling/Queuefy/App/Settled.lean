import Queuefy.App.Json

/-! # What is settled stays settled

What `as_written` and `keepable` answer is a value every store reads back as it is, and settling
it again answers it again, on exactly the values that hold no whole number of a derived class past
the range where the reading back keeps it, or that are refused for something else.
-/

namespace Queuefy.Json

variable {F : Type}

/-! ## What is stored -/

/--
A value every store reads back unchanged: of the built-in classes alone, its whole numbers in the
range, its texts of the characters that are allowed, its mappings keyed by texts.
-/
inductive Stored (allowed : Nat → Bool) : Value F → Prop
  | none : Stored allowed .none
  | bool (truth : Bool) : Stored allowed (.bool truth)
  | int {n : Int} (h : whole n = true) : Stored allowed (.int false n)
  | float (x : F) : Stored allowed (.float x)
  | str {t : Text} (h : t.all allowed = true) : Stored allowed (.str false t)
  | list {items : List (Value F)} (h : ∀ item ∈ items, Stored allowed item) :
      Stored allowed (.sequence .list false items)
  | dict {entries : List (Key F × Value F)} (honce : (Mapping.names entries).Nodup)
      (hnames : ∀ entry ∈ entries, ∃ t : Text, t.all allowed = true ∧ entry.1 = .str false t)
      (hheld : ∀ entry ∈ entries, Stored allowed entry.2) :
      Stored allowed (.dict false entries)

/-- What UTF-8 writes. -/
def utf8 (c : Nat) : Bool := !surrogate c

/-- What UTF-8 writes and every store holds: anything but a NUL. -/
def holdable (c : Nat) : Bool := utf8 c && c != 0

/--
A settling is canonical at a value: what it raises there is one of the refusals its caller is
promised, and what it answers is stored as it is and settles into itself.
-/
def Canonical (settle : Value F → Except Refusal (Value F)) (refusals : List Refusal)
    (allowed : Nat → Bool) (v : Value F) : Prop :=
  match settle v with
  | .error refusal => refusal ∈ refusals
  | .ok settled => Stored allowed settled ∧ settle settled = .ok settled

/-! ## What is refused -/

mutual

/-- Whether the calls the interpreter has left reach the bottom of a value. -/
def Value.reached : Nat → Value F → Bool
  | 0, _ => false
  | calls + 1, .sequence _ _ items => reachedItems calls items
  | calls + 1, .dict _ entries => reachedHeld calls entries
  | _ + 1, _ => true

def Value.reachedItems (calls : Nat) : List (Value F) → Bool
  | [] => true
  | item :: rest => item.reached calls && reachedItems calls rest

def Value.reachedHeld (calls : Nat) : List (Key F × Value F) → Bool
  | [] => true
  | (_, held) :: rest => held.reached calls && reachedHeld calls rest

end

/-- Whether JSON has a name for a key and the interpreter writes it. -/
def Key.named (limits : Limits) : Key F → Bool
  | .int _ n => limits.spells n
  | .nonfinite _ | .other _ => false
  | .none | .bool _ | .float _ | .str _ _ => true

mutual

/--
Whether the writer takes a value, of the entries of every mapping those that are kept: all of them
in a payload, and of two keys escaped into one the later in an answer.
-/
def Value.taken (limits : Limits) (kept : List (Key F × Bool) → List (Key F × Bool)) :
    Nat → Value F → Bool
  | _, .none | _, .bool _ | _, .float _ | _, .str _ _ => true
  | _, .int _ n => limits.spells n
  | _, .nonfinite | _, .other | _, .itself => false
  | 0, .sequence _ _ _ | 0, .dict _ _ => false
  | levels + 1, .sequence _ _ items => takenItems limits kept levels items
  | levels + 1, .dict _ entries =>
      (kept (takenHeld limits kept levels entries)).all fun entry =>
        entry.1.named limits && entry.2

def Value.takenItems (limits : Limits) (kept : List (Key F × Bool) → List (Key F × Bool))
    (levels : Nat) : List (Value F) → Bool
  | [] => true
  | item :: rest => item.taken limits kept levels && takenItems limits kept levels rest

def Value.takenHeld (limits : Limits) (kept : List (Key F × Bool) → List (Key F × Bool))
    (levels : Nat) : List (Key F × Value F) → List (Key F × Bool)
  | [] => []
  | (key, held) :: rest =>
      (key, held.taken limits kept levels) :: takenHeld limits kept levels rest

end

/-- Whether the texts of a key are of the characters that are allowed. -/
def Key.every (allowed : Nat → Bool) : Key F → Bool
  | .str _ t => t.all allowed
  | .none | .bool _ | .int _ _ | .float _ | .nonfinite _ | .other _ => true

mutual

/-- Whether every text in a value is of the characters that are allowed. -/
def Value.every (allowed : Nat → Bool) : Value F → Bool
  | .str _ t => t.all allowed
  | .sequence _ _ items => everyItems allowed items
  | .dict _ entries => everyHeld allowed entries
  | .none | .bool _ | .int _ _ | .float _ | .nonfinite | .other | .itself => true

def Value.everyItems (allowed : Nat → Bool) : List (Value F) → Bool
  | [] => true
  | item :: rest => item.every allowed && everyItems allowed rest

def Value.everyHeld (allowed : Nat → Bool) : List (Key F × Value F) → Bool
  | [] => true
  | (key, held) :: rest => key.every allowed && held.every allowed && everyHeld allowed rest

end

/-! ## What passes the walk and is not stored -/

/-- The name a key has in JSON, and none where it has none. -/
def Key.label [Floats F] : Key F → Text
  | .none => [110, 117, 108, 108]
  | .bool true => [116, 114, 117, 101]
  | .bool false => [102, 97, 108, 115, 101]
  | .int _ n => decimal n
  | .float x => Floats.spelled x
  | .str _ t => t
  | .nonfinite _ | .other _ => []

/-- What the reading back of a mapping keeps: of the entries written under one name the last. -/
def readBack [Floats F] {α : Type} (entries : List (Key F × α)) : List (Text × α) :=
  Mapping.build (Mapping.rename Key.label entries)

mutual

/-- Whether a value keeps a whole number of a derived class past the range. -/
def Value.slips [Floats F] (kept : List (Key F × Bool) → List (Key F × Bool)) : Value F → Bool
  | .int derived n => derived && !whole n
  | .sequence _ _ items => slipsItems kept items
  | .dict _ entries => (readBack (kept (slipsHeld kept entries))).any fun entry => entry.2
  | .none | .bool _ | .float _ | .nonfinite | .str _ _ | .other | .itself => false

def Value.slipsItems [Floats F] (kept : List (Key F × Bool) → List (Key F × Bool)) :
    List (Value F) → Bool
  | [] => false
  | item :: rest => item.slips kept || slipsItems kept rest

def Value.slipsHeld [Floats F] (kept : List (Key F × Bool) → List (Key F × Bool)) :
    List (Key F × Value F) → List (Key F × Bool)
  | [] => []
  | (key, held) :: rest => (key, held.slips kept) :: slipsHeld kept rest

end

/-- A payload nothing in `as_written` refuses. -/
def PayloadTaken [Floats F] (limits : Limits) (payload : Value F) : Prop :=
  (∃ derived entries, payload = .dict derived entries) ∧
    exact limits limits.walk payload = .ok () ∧
    payload.taken limits id limits.write = true ∧ payload.every utf8 = true

/-- An answer nothing in `keepable` refuses. -/
def AnswerTaken [DecidableEq F] (limits : Limits) (answer : Value F) : Prop :=
  exact limits limits.walk answer = .ok () ∧ answer.reached limits.escape = true ∧
    answer.taken limits rekeyed limits.write = true

/-! ## Containers, as their items -/

theorem reachedItems_eq (calls : Nat) (items : List (Value F)) :
    Value.reachedItems calls items = items.all (Value.reached calls) := by
  induction items with
  | nil => rfl
  | cons item rest ih => rw [Value.reachedItems, List.all_cons, ih]

theorem reachedHeld_eq (calls : Nat) (entries : List (Key F × Value F)) :
    Value.reachedHeld calls entries = entries.all fun entry => entry.2.reached calls := by
  induction entries with
  | nil => rfl
  | cons entry rest ih => rw [Value.reachedHeld, List.all_cons, ih]

section

variable (limits : Limits) (kept : List (Key F × Bool) → List (Key F × Bool))

theorem takenItems_eq (levels : Nat) (items : List (Value F)) :
    Value.takenItems limits kept levels items =
      items.all (Value.taken limits kept levels) := by
  induction items with
  | nil => rfl
  | cons item rest ih => rw [Value.takenItems, List.all_cons, ih]

theorem takenHeld_eq (levels : Nat) (entries : List (Key F × Value F)) :
    Value.takenHeld limits kept levels entries =
      Mapping.read (Value.taken limits kept levels) entries := by
  induction entries with
  | nil => rfl
  | cons entry rest ih => rw [Value.takenHeld, Mapping.read_cons, ih]

theorem slipsItems_eq [Floats F] (items : List (Value F)) :
    Value.slipsItems kept items = items.any (Value.slips kept) := by
  induction items with
  | nil => rfl
  | cons item rest ih => rw [Value.slipsItems, List.any_cons, ih]

theorem slipsHeld_eq [Floats F] (entries : List (Key F × Value F)) :
    Value.slipsHeld kept entries = Mapping.read (Value.slips kept) entries := by
  induction entries with
  | nil => rfl
  | cons entry rest ih => rw [Value.slipsHeld, Mapping.read_cons, ih]

end

theorem everyValues_eq (allowed : Nat → Bool) (items : List (Value F)) :
    Value.everyItems allowed items = items.all (Value.every allowed) := by
  induction items with
  | nil => rfl
  | cons item rest ih => rw [Value.everyItems, List.all_cons, ih]

theorem everyHeld_eq (allowed : Nat → Bool) (entries : List (Key F × Value F)) :
    Value.everyHeld allowed entries =
      entries.all fun entry => entry.1.every allowed && entry.2.every allowed := by
  induction entries with
  | nil => rfl
  | cons entry rest ih => rw [Value.everyHeld, List.all_cons, ih]

theorem taken_dict {limits : Limits} {levels : Nat} {derived : Bool}
    {entries : List (Key F × Value F)} :
    (Value.dict derived entries).taken limits id (levels + 1) = true ↔
      ∀ entry ∈ entries, entry.1.named limits = true ∧
        entry.2.taken limits id levels = true := by
  rw [Value.taken, takenHeld_eq, id, Mapping.read, List.all_map, List.all_eq_true]
  simp

/-! ## What the writer answers -/

mutual

/-- The text of JSON the writer makes of a value it takes. -/
def Value.spelled [Floats F] : Value F → Doc F
  | .bool truth => .bool truth
  | .int _ n => .int n
  | .float x => .float x
  | .str _ t => .text t
  | .sequence _ _ items => .array (spelledItems items)
  | .dict _ entries => .object (spelledHeld entries)
  | .none | .nonfinite | .other | .itself => .null

def Value.spelledItems [Floats F] : List (Value F) → List (Doc F)
  | [] => []
  | item :: rest => item.spelled :: spelledItems rest

def Value.spelledHeld [Floats F] : List (Key F × Value F) → List (Text × Doc F)
  | [] => []
  | (key, held) :: rest => (key.label, held.spelled) :: spelledHeld rest

end

theorem spelledItems_eq [Floats F] (items : List (Value F)) :
    Value.spelledItems items = items.map Value.spelled := by
  induction items with
  | nil => rfl
  | cons item rest ih => rw [Value.spelledItems, List.map_cons, ih]

theorem spelledHeld_eq [Floats F] (entries : List (Key F × Value F)) :
    Value.spelledHeld entries = entries.map fun entry => (entry.1.label, entry.2.spelled) := by
  induction entries with
  | nil => rfl
  | cons entry rest ih => rw [Value.spelledHeld, List.map_cons, ih]

theorem keyName_gives [Floats F] (limits : Limits) (key : Key F) :
    Gives (keyName limits key) (key.named limits) key.label := by
  cases key with
  | none => exact .ok _
  | bool truth => cases truth <;> exact .ok _
  | int derived n => exact .guard _ _ _
  | float x => exact .ok _
  | nonfinite id => exact .error _ _
  | str derived t => exact .ok _
  | other id => exact .error _ _

/-- The writer answers where it takes the value, and what it answers spells the value. -/
theorem dumps_gives [Floats F] (limits : Limits) (levels : Nat) (v : Value F) :
    Gives (dumps limits levels v) (v.taken limits id levels) v.spelled := by
  induction v using Value.induct generalizing levels with
  | none | bool truth | float x | str derived t =>
      cases levels <;> exact .ok _
  | nonfinite | other | itself => cases levels <;> exact .error _ _
  | int derived n => cases levels <;> exact .guard _ _ _
  | sequence form derived items ih =>
      cases levels with
      | zero => exact .error _ _
      | succ levels =>
          have hitems : Gives (items.mapM (dumps limits levels))
              (items.all (Value.taken limits id levels)) (items.map Value.spelled) :=
            Gives.mapM fun item hitem => ih item hitem levels
          have harray := hitems.map Doc.array
          rwa [← dumpsItems_eq, ← takenItems_eq, ← spelledItems_eq] at harray
  | dict derived entries ih =>
      cases levels with
      | zero => exact .error _ _
      | succ levels =>
          have hentry : ∀ entry ∈ entries, Gives
              (do
                let name ← keyName limits entry.1
                let held ← dumps limits levels entry.2
                return (name, held))
              (entry.1.named limits && entry.2.taken limits id levels)
              (entry.1.label, entry.2.spelled) := fun entry h =>
            (keyName_gives limits entry.1).bind fun _ =>
              (ih entry h levels).map fun held => (entry.1.label, held)
          have hobject := (Gives.mapM hentry).map Doc.object
          rw [← dumpsEntries_eq, ← spelledHeld_eq] at hobject
          show Gives _ (((Value.takenHeld limits id levels entries)).all _) _
          rw [takenHeld_eq, Mapping.read, List.all_map]
          exact hobject

/-! ## What the escaping answers -/

mutual

/-- The escaped value, where the interpreter reaches the bottom of it. -/
def Value.cleaned [DecidableEq F] : Value F → Value F
  | .str _ t => .str false (storable t)
  | .sequence form _ items => .sequence form false (cleanedItems items)
  | .dict _ entries => .dict false (rekeyed (cleanedHeld entries))
  | .none => .none
  | .bool truth => .bool truth
  | .int derived n => .int derived n
  | .float x => .float x
  | .nonfinite => .nonfinite
  | .other => .other
  | .itself => .itself

def Value.cleanedItems [DecidableEq F] : List (Value F) → List (Value F)
  | [] => []
  | item :: rest => item.cleaned :: cleanedItems rest

def Value.cleanedHeld [DecidableEq F] : List (Key F × Value F) → List (Key F × Value F)
  | [] => []
  | (key, held) :: rest => (key, held.cleaned) :: cleanedHeld rest

end

theorem cleanedItems_eq [DecidableEq F] (items : List (Value F)) :
    Value.cleanedItems items = items.map Value.cleaned := by
  induction items with
  | nil => rfl
  | cons item rest ih => rw [Value.cleanedItems, List.map_cons, ih]

theorem cleanedHeld_eq [DecidableEq F] (entries : List (Key F × Value F)) :
    Value.cleanedHeld entries = Mapping.read Value.cleaned entries := by
  induction entries with
  | nil => rfl
  | cons entry rest ih => rw [Value.cleanedHeld, Mapping.read_cons, ih]

/-- Of a value that passed the walk the escaping refuses only the depth. -/
theorem escaped_gives [DecidableEq F] {limits : Limits} {walk : Nat} {v : Value F}
    (h : exact limits walk v = .ok ()) (calls : Nat) :
    Gives (escaped calls v) (v.reached calls) v.cleaned := by
  induction v using Value.induct generalizing walk calls with
  | none | bool truth | int derived n | float x | nonfinite | str derived t | other =>
      cases calls
      · exact .error _ _
      · exact .ok _
  | itself => cases walk <;> cases h
  | sequence form derived items ih =>
      cases calls with
      | zero => exact .error _ _
      | succ calls =>
          have hwalk : ∃ rest, walk = rest + 1 ∧
              ∀ item ∈ items, exact limits rest item = .ok () := exact_sequence.1 h
          rcases hwalk with ⟨rest, -, hitems⟩
          have hmap : Gives (items.mapM (escaped calls)) (items.all (Value.reached calls))
              (items.map Value.cleaned) :=
            Gives.mapM fun item hitem => ih item hitem (hitems item hitem) calls
          rw [← escapedItems_eq, ← reachedItems_eq, ← cleanedItems_eq] at hmap
          exact hmap.map (Value.sequence form false)
  | dict derived entries ih =>
      cases calls with
      | zero => exact .error _ _
      | succ calls =>
          have hwalk : ∃ rest, walk = rest + 1 ∧
              ∀ entry ∈ entries, exact limits rest entry.2 = .ok () := exact_dict.1 h
          rcases hwalk with ⟨rest, -, hheld⟩
          have hentry : ∀ entry ∈ entries, Gives
              (do
                let held ← escaped calls entry.2
                return (entry.1, held))
              (entry.2.reached calls) (entry.1, entry.2.cleaned) := fun entry hmem =>
            (ih entry hmem (hheld entry hmem) calls).map fun held => (entry.1, held)
          have hmap := Gives.mapM hentry
          rw [← escapedEntries_eq, ← reachedHeld_eq] at hmap
          have hcleaned : (entries.map fun entry => (entry.1, entry.2.cleaned)) =
              Value.cleanedHeld entries := (cleanedHeld_eq entries).symm
          rw [hcleaned] at hmap
          exact hmap.map fun entries => Value.dict false (rekeyed entries)

theorem read_rekeyed [DecidableEq F] {α β : Type} (f : α → β) (entries : List (Key F × α)) :
    Mapping.read f (rekeyed entries) = rekeyed (Mapping.read f entries) := by
  rw [rekeyed, Mapping.read_build, Mapping.read_rename, rekeyed]

theorem read_readBack [Floats F] {α β : Type} (f : α → β) (entries : List (Key F × α)) :
    Mapping.read f (readBack entries) = readBack (Mapping.read f entries) := by
  rw [readBack, Mapping.read_build, Mapping.read_rename, readBack]

theorem mem_rekeyed [DecidableEq F] {α : Type} {entries : List (Key F × α)} {entry : Key F × α}
    (h : entry ∈ rekeyed entries) : ∃ first ∈ entries, entry = (escapedKey first.1, first.2) := by
  have hmem : entry ∈ Mapping.rename escapedKey entries := Mapping.mem_of_mem_build h
  rcases List.mem_map.1 hmem with ⟨first, hfirst, heq⟩
  exact ⟨first, hfirst, heq.symm⟩

theorem mem_cleanedHeld [DecidableEq F] {entries : List (Key F × Value F)} {entry : Key F × Value F}
    (h : entry ∈ rekeyed (Value.cleanedHeld entries)) :
    ∃ first ∈ entries, entry = (escapedKey first.1, first.2.cleaned) := by
  rw [cleanedHeld_eq] at h
  rcases mem_rekeyed h with ⟨read, hread, rfl⟩
  rcases List.mem_map.1 hread with ⟨first, hfirst, rfl⟩
  exact ⟨first, hfirst, rfl⟩

/-- The writer takes an escaped value as it takes the value, but for the keys escaped into one. -/
theorem taken_cleaned [DecidableEq F] (limits : Limits) (levels : Nat) (v : Value F) :
    v.cleaned.taken limits id levels = v.taken limits rekeyed levels := by
  induction v using Value.induct generalizing levels with
  | none | bool truth | int derived n | float x | nonfinite | str derived t | other | itself =>
      cases levels <;> rfl
  | sequence form derived items ih =>
      cases levels with
      | zero => rfl
      | succ levels =>
          rw [Value.cleaned, Value.taken, Value.taken, takenItems_eq, takenItems_eq,
            cleanedItems_eq, List.all_map, Bool.eq_iff_iff, List.all_eq_true, List.all_eq_true]
          apply forall₂_congr
          intro item hitem
          rw [Function.comp_apply, ih item hitem levels]
  | dict derived entries ih =>
      cases levels with
      | zero => rfl
      | succ levels =>
          have hread : Mapping.read (fun held => held.cleaned.taken limits id levels) entries =
              Mapping.read (Value.taken limits rekeyed levels) entries :=
            Mapping.read_congr fun entry hentry => ih entry hentry levels
          rw [Value.cleaned, Value.taken, Value.taken, takenHeld_eq, takenHeld_eq,
            cleanedHeld_eq, read_rekeyed, Mapping.read_read, hread, id]

/-- An escaped value keeps what the value keeps, but for the keys escaped into one. -/
theorem slips_cleaned [DecidableEq F] [Floats F] (v : Value F) :
    v.cleaned.slips id = v.slips rekeyed := by
  induction v using Value.induct with
  | none | bool truth | int derived n | float x | nonfinite | str derived t | other | itself => rfl
  | sequence form derived items ih =>
      rw [Value.cleaned, Value.slips, Value.slips, slipsItems_eq, slipsItems_eq, cleanedItems_eq,
        List.any_map, Bool.eq_iff_iff, List.any_eq_true, List.any_eq_true]
      apply exists_congr
      intro item
      apply and_congr_right
      intro hitem
      rw [Function.comp_apply, ih item hitem]
  | dict derived entries ih =>
      have hread : Mapping.read (fun held => held.cleaned.slips id) entries =
          Mapping.read (Value.slips rekeyed) entries :=
        Mapping.read_congr fun entry hentry => ih entry hentry
      rw [Value.cleaned, Value.slips, Value.slips, slipsHeld_eq, slipsHeld_eq, cleanedHeld_eq,
        read_rekeyed, Mapping.read_read, hread, id]

theorem exact_cleaned [DecidableEq F] {limits : Limits} {calls : Nat} {v : Value F}
    (h : exact limits calls v = .ok ()) : exact limits calls v.cleaned = .ok () := by
  induction v using Value.induct generalizing calls with
  | none | bool truth | int derived n | float x | nonfinite | other | itself => exact h
  | str derived t => cases calls <;> [cases h; rfl]
  | sequence form derived items ih =>
      rcases exact_sequence.1 h with ⟨rest, rfl, hitems⟩
      rw [Value.cleaned, cleanedItems_eq]
      apply exact_sequence.2
      refine ⟨rest, rfl, ?_⟩
      intro cleaned hcleaned
      rcases List.mem_map.1 hcleaned with ⟨item, hitem, rfl⟩
      exact ih item hitem (hitems item hitem)
  | dict derived entries ih =>
      rcases exact_dict.1 h with ⟨rest, rfl, hheld⟩
      rw [Value.cleaned]
      apply exact_dict.2
      refine ⟨rest, rfl, ?_⟩
      intro entry hentry
      rcases mem_cleanedHeld hentry with ⟨first, hfirst, rfl⟩
      exact ih first hfirst (hheld first hfirst)

theorem reached_cleaned [DecidableEq F] {calls : Nat} {v : Value F}
    (h : v.reached calls = true) : v.cleaned.reached calls = true := by
  induction v using Value.induct generalizing calls with
  | none | bool truth | int derived n | float x | nonfinite | other | itself => exact h
  | str derived t => cases calls <;> [cases h; rfl]
  | sequence form derived items ih =>
      cases calls with
      | zero => cases h
      | succ calls =>
          rw [Value.reached, reachedItems_eq, List.all_eq_true] at h
          rw [Value.cleaned, Value.reached, reachedItems_eq, cleanedItems_eq, List.all_eq_true]
          intro cleaned hcleaned
          rcases List.mem_map.1 hcleaned with ⟨item, hitem, rfl⟩
          exact ih item hitem (h item hitem)
  | dict derived entries ih =>
      cases calls with
      | zero => cases h
      | succ calls =>
          rw [Value.reached, reachedHeld_eq, List.all_eq_true] at h
          rw [Value.cleaned, Value.reached, reachedHeld_eq, List.all_eq_true]
          intro entry hentry
          rcases mem_cleanedHeld hentry with ⟨first, hfirst, rfl⟩
          exact ih first hfirst (h first hfirst)

/-! ## Escaped texts -/

theorem utf8_of_mem_backslashed {c d : Nat} (h : d ∈ backslashed c) : utf8 d = true := by
  unfold backslashed at h
  by_cases hc : surrogate c = true
  · have hlt : c < 65536 := by
      simp only [surrogate, Bool.and_eq_true, decide_eq_true_eq] at hc
      omega
    rw [if_pos hc] at h
    have hhex : ∀ d < 16, utf8 (hexDigit d) = true := by decide
    simp only [List.mem_cons, List.not_mem_nil, or_false] at h
    rcases h with rfl | rfl | rfl | rfl | rfl | rfl
    · rfl
    · rfl
    · exact hhex _ (by omega)
    · exact hhex _ (Nat.mod_lt _ (by decide))
    · exact hhex _ (Nat.mod_lt _ (by decide))
    · exact hhex _ (Nat.mod_lt _ (by decide))
  · rw [if_neg hc] at h
    rw [List.mem_singleton.1 h, utf8, Bool.not_eq_true _ |>.mp hc, Bool.not_false]

theorem storable_holdable (t : Text) : (storable t).all holdable = true := by
  rw [List.all_eq_true]
  intro c hc
  rcases List.mem_flatMap.1 hc with ⟨d, hd, hcd⟩
  rcases List.mem_flatMap.1 hd with ⟨e, -, hde⟩
  by_cases hzero : d = 0
  · rw [if_pos hzero] at hcd
    have hnul : ∀ c ∈ [92, 120, 48, 48], holdable c = true := by decide
    exact hnul c hcd
  · rw [if_neg hzero] at hcd
    rw [List.mem_singleton.1 hcd, holdable, utf8_of_mem_backslashed hde, Bool.true_and, bne_iff_ne]
    exact hzero

theorem storable_of_holdable {t : Text} (h : t.all holdable = true) : storable t = t := by
  have hchar : ∀ c ∈ t, surrogate c = false ∧ c ≠ 0 := by
    intro c hc
    have hc' : holdable c = true := List.all_eq_true.1 h c hc
    simpa [holdable, utf8] using hc'
  have hback : t.flatMap backslashed = t := by
    calc t.flatMap backslashed = t.flatMap fun c => [c] :=
          List.flatMap_congr fun c hc => by simp [backslashed, (hchar c hc).1]
      _ = t := List.flatMap_singleton' t
  have hnul : (t.flatMap fun c => if c = 0 then [92, 120, 48, 48] else [c]) = t := by
    calc (t.flatMap fun c => if c = 0 then [92, 120, 48, 48] else [c]) = t.flatMap fun c => [c] :=
          List.flatMap_congr fun c hc => by rw [if_neg (hchar c hc).2]
      _ = t := List.flatMap_singleton' t
  rw [storable, hback, hnul]

theorem escapedKey_holdable (key : Key F) : (escapedKey key).every holdable = true := by
  cases key with
  | str derived t => exact storable_holdable t
  | none | bool truth | int derived n | float x | nonfinite id | other id => rfl

theorem every_cleaned [DecidableEq F] (v : Value F) : v.cleaned.every holdable = true := by
  induction v using Value.induct with
  | none | bool truth | int derived n | float x | nonfinite | other | itself => rfl
  | str derived t => exact storable_holdable t
  | sequence form derived items ih =>
      rw [Value.cleaned, Value.every, everyValues_eq, cleanedItems_eq, List.all_eq_true]
      intro cleaned hcleaned
      rcases List.mem_map.1 hcleaned with ⟨item, hitem, rfl⟩
      exact ih item hitem
  | dict derived entries ih =>
      rw [Value.cleaned, Value.every, everyHeld_eq, List.all_eq_true]
      intro entry hentry
      rcases mem_cleanedHeld hentry with ⟨first, hfirst, rfl⟩
      rw [escapedKey_holdable, ih first hfirst, Bool.and_self]

/-! ## What is read back -/

/-- A value as it is read back once it is written. -/
def Value.back [Floats F] (v : Value F) : Value F := loads v.spelled

section

variable [Floats F]

theorem back_sequence (form : Form) (derived : Bool) (items : List (Value F)) :
    (Value.sequence form derived items).back = .sequence .list false (items.map Value.back) := by
  rw [Value.back, Value.spelled, loads, loadsItems_eq, spelledItems_eq, List.map_map]
  rfl

theorem back_dict (derived : Bool) (entries : List (Key F × Value F)) :
    (Value.dict derived entries).back =
      .dict false
        (Mapping.rename (Key.str false) (Mapping.read Value.back (readBack entries))) := by
  have hread : loadsMembers (Value.spelledHeld entries) =
      Mapping.rename Key.label (Mapping.read Value.back entries) := by
    rw [loadsMembers_eq, spelledHeld_eq]
    simp [Mapping.read, Mapping.rename, Value.back]
  rw [read_readBack, Value.back, Value.spelled, loads, hread]
  rfl

/-- What a mapping is read back with is an entry of it, under its name. -/
theorem mem_readBack {α : Type} {entries : List (Key F × α)} {member : Text × α}
    (h : member ∈ readBack entries) : ∃ entry ∈ entries, member = (entry.1.label, entry.2) := by
  have hmem : member ∈ Mapping.rename Key.label entries := Mapping.mem_of_mem_build h
  rcases List.mem_map.1 hmem with ⟨entry, hentry, heq⟩
  exact ⟨entry, hentry, heq.symm⟩

theorem mem_back {entries : List (Key F × Value F)} {read : Key F × Value F}
    (h : read ∈ Mapping.rename (Key.str false) (Mapping.read Value.back (readBack entries))) :
    ∃ entry ∈ entries, read = (.str false entry.1.label, entry.2.back) := by
  rcases List.mem_map.1 h with ⟨member, hmember, rfl⟩
  rcases List.mem_map.1 hmember with ⟨kept, hkept, rfl⟩
  rcases mem_readBack hkept with ⟨entry, hentry, rfl⟩
  exact ⟨entry, hentry, rfl⟩

theorem reached_back {calls : Nat} {v : Value F} (h : v.reached calls = true) :
    v.back.reached calls = true := by
  induction v using Value.induct generalizing calls with
  | none | bool truth | int derived n | float x | nonfinite | str derived t | other | itself =>
      cases calls <;> [cases h; rfl]
  | sequence form derived items ih =>
      cases calls with
      | zero => cases h
      | succ calls =>
          rw [Value.reached, reachedItems_eq, List.all_eq_true] at h
          rw [back_sequence, Value.reached, reachedItems_eq, List.all_eq_true]
          intro back hback
          rcases List.mem_map.1 hback with ⟨item, hitem, rfl⟩
          exact ih item hitem (h item hitem)
  | dict derived entries ih =>
      cases calls with
      | zero => cases h
      | succ calls =>
          rw [Value.reached, reachedHeld_eq, List.all_eq_true] at h
          rw [back_dict, Value.reached, reachedHeld_eq, List.all_eq_true]
          intro read hread
          rcases mem_back hread with ⟨entry, hentry, rfl⟩
          exact ih entry hentry (h entry hentry)

/-- A value the writer takes is one it takes again when it is read back. -/
theorem taken_back {limits : Limits} {levels : Nat} {v : Value F}
    (h : v.taken limits id levels = true) : v.back.taken limits id levels = true := by
  induction v using Value.induct generalizing levels with
  | none | bool truth | int derived n | float x | str derived t => cases levels <;> exact h
  | nonfinite | other | itself => cases levels <;> cases h
  | sequence form derived items ih =>
      cases levels with
      | zero => cases h
      | succ levels =>
          rw [Value.taken, takenItems_eq, List.all_eq_true] at h
          rw [back_sequence, Value.taken, takenItems_eq, List.all_eq_true]
          intro back hback
          rcases List.mem_map.1 hback with ⟨item, hitem, rfl⟩
          exact ih item hitem (h item hitem)
  | dict derived entries ih =>
      cases levels with
      | zero => cases h
      | succ levels =>
          rw [taken_dict] at h
          rw [back_dict, taken_dict]
          intro read hread
          rcases mem_back hread with ⟨entry, hentry, rfl⟩
          exact ⟨rfl, ih entry hentry (h entry hentry).2⟩

/-- The names of the writer's own are printable, so its texts are the texts of the value. -/
theorem label_every {allowed : Nat → Bool}
    (hprintable : ∀ c, 32 ≤ c → c < 127 → allowed c = true) (key : Key F) :
    key.label.all allowed = key.every allowed := by
  cases key with
  | str derived t => rfl
  | nonfinite id | other id => rfl
  | none => simp [Key.label, Key.every, hprintable]
  | bool truth => cases truth <;> simp [Key.label, Key.every, hprintable]
  | int derived n =>
      apply List.all_eq_true.2
      intro c hc
      exact hprintable c (decimal_printable hc).1 (decimal_printable hc).2
  | float x =>
      apply List.all_eq_true.2
      intro c hc
      exact hprintable c (Floats.printable x c hc).1 (Floats.printable x c hc).2

theorem spelled_every {allowed : Nat → Bool}
    (hprintable : ∀ c, 32 ≤ c → c < 127 → allowed c = true) (v : Value F) :
    v.spelled.every allowed = v.every allowed := by
  induction v using Value.induct with
  | none | bool truth | int derived n | float x | nonfinite | str derived t | other | itself => rfl
  | sequence form derived items ih =>
      rw [Value.spelled, Doc.every, Value.every, everyItems_eq, everyValues_eq, spelledItems_eq,
        List.all_map, Bool.eq_iff_iff, List.all_eq_true, List.all_eq_true]
      apply forall₂_congr
      intro item hitem
      rw [Function.comp_apply, ih item hitem]
  | dict derived entries ih =>
      rw [Value.spelled, Doc.every, Value.every, everyMembers_eq, everyHeld_eq, spelledHeld_eq,
        List.all_map, Bool.eq_iff_iff, List.all_eq_true, List.all_eq_true]
      apply forall₂_congr
      intro entry hentry
      rw [Function.comp_apply, label_every hprintable, ih entry hentry]

/-! ## What is read back is stored -/

/-- A mapping is stored where everything it holds is, once its names are of the characters. -/
theorem stored_back_dict {allowed : Nat → Bool}
    (hprintable : ∀ c, 32 ≤ c → c < 127 → allowed c = true) {derived : Bool}
    {entries : List (Key F × Value F)}
    (hevery : (Value.dict derived entries).every allowed = true) :
    Stored allowed (Value.dict derived entries).back ↔
      ∀ entry ∈ readBack entries, Stored allowed entry.2.back := by
  rw [back_dict, ← Mapping.forall_mem_read Value.back, ← Mapping.forall_mem_rename (Key.str false)]
  constructor
  · intro hstored
    cases hstored with
    | dict honce hnames hheld => exact hheld
  · intro hheld
    apply Stored.dict _ _ hheld
    · rw [Mapping.names_rename, Mapping.names_read]
      apply List.Nodup.map
      · intro t t' heq
        injection heq
      · exact Mapping.nodup_build _
    · intro read hread
      rcases mem_back hread with ⟨entry, hentry, rfl⟩
      rw [Value.every, everyHeld_eq, List.all_eq_true] at hevery
      have hkey : entry.1.every allowed = true := (Bool.and_eq_true_iff.1 (hevery entry hentry)).1
      exact ⟨entry.1.label, by rw [label_every hprintable, hkey], rfl⟩

/-- A mapping keeps nothing past the range where nothing it is read back with does. -/
theorem slips_dict {derived : Bool} {entries : List (Key F × Value F)} :
    (Value.dict derived entries).slips id = false ↔
      ∀ entry ∈ readBack entries, entry.2.slips id = false := by
  rw [Value.slips, slipsHeld_eq, id, ← read_readBack, List.any_eq_false]
  rw [← Mapping.forall_mem_read (Value.slips id) (readBack entries) (· = false)]
  simp

/--
A value that passed the walk and the writer is stored where it keeps no whole number of a derived
class past the range.
-/
theorem stored_back {allowed : Nat → Bool}
    (hprintable : ∀ c, 32 ≤ c → c < 127 → allowed c = true) {limits : Limits} {calls levels : Nat}
    {v : Value F} (hexact : exact limits calls v = .ok ())
    (htaken : v.taken limits id levels = true) (hevery : v.every allowed = true) :
    Stored allowed v.back ↔ v.slips id = false := by
  induction v using Value.induct generalizing calls levels with
  | none => exact iff_of_true .none rfl
  | bool truth => exact iff_of_true (.bool truth) rfl
  | float x => exact iff_of_true (.float x) rfl
  | str derived t => exact iff_of_true (.str hevery) rfl
  | nonfinite | other | itself => cases levels <;> cases htaken
  | int derived n =>
      have hplain : derived = false → whole n = true := (exact_int.1 hexact).2
      by_cases hwhole : whole n = true
      · exact iff_of_true (.int hwhole) (by rw [Value.slips, hwhole, Bool.not_true, Bool.and_false])
      · have hderived : derived = true := by
          cases derived
          · exact absurd (hplain rfl) hwhole
          · rfl
        apply iff_of_false
        · intro hstored
          cases hstored with
          | int h => exact hwhole h
        · rw [Value.slips, hderived, Bool.true_and, Bool.not_eq_false']
          exact hwhole
  | sequence form derived items ih =>
      rcases exact_sequence.1 hexact with ⟨rest, -, hitems⟩
      cases levels with
      | zero => cases htaken
      | succ levels =>
          rw [Value.taken, takenItems_eq, List.all_eq_true] at htaken
          rw [Value.every, everyValues_eq, List.all_eq_true] at hevery
          have hitem : ∀ item ∈ items, (Stored allowed item.back ↔ item.slips id = false) :=
            fun item h => ih item h (hitems item h) (htaken item h) (hevery item h)
          rw [back_sequence, Value.slips, slipsItems_eq, List.any_eq_false]
          constructor
          · intro hstored
            cases hstored with
            | list hback =>
                intro item h
                rw [(hitem item h).1 (hback item.back (List.mem_map_of_mem h))]
                exact Bool.false_ne_true
          · intro hslips
            apply Stored.list
            intro back hback
            rcases List.mem_map.1 hback with ⟨item, h, rfl⟩
            exact (hitem item h).2 (Bool.eq_false_iff.2 (hslips item h))
  | dict derived entries ih =>
      rcases exact_dict.1 hexact with ⟨rest, -, hheld⟩
      cases levels with
      | zero => cases htaken
      | succ levels =>
          have htexts := hevery
          rw [Value.every, everyHeld_eq, List.all_eq_true] at hevery
          rw [stored_back_dict hprintable htexts, slips_dict]
          apply forall₂_congr
          intro member hmember
          rcases mem_readBack hmember with ⟨entry, h, rfl⟩
          exact ih entry h (hheld entry h) (taken_dict.1 htaken entry h).2
            (Bool.and_eq_true_iff.1 (hevery entry h)).2

end

/-! ## What is stored settles into itself -/

theorem reached_of_exact {limits : Limits} {calls : Nat} {v : Value F}
    (h : exact limits calls v = .ok ()) : v.reached calls = true := by
  induction v using Value.induct generalizing calls with
  | none | bool truth | int derived n | float x | nonfinite | str derived t | other | itself =>
      cases calls <;> [cases h; rfl]
  | sequence form derived items ih =>
      rcases exact_sequence.1 h with ⟨rest, rfl, hitems⟩
      rw [Value.reached, reachedItems_eq, List.all_eq_true]
      exact fun item hitem => ih item hitem (hitems item hitem)
  | dict derived entries ih =>
      rcases exact_dict.1 h with ⟨rest, rfl, hheld⟩
      rw [Value.reached, reachedHeld_eq, List.all_eq_true]
      exact fun entry hentry => ih entry hentry (hheld entry hentry)

theorem exact_stored {allowed : Nat → Bool} {limits : Limits} {calls : Nat} {v : Value F}
    (hstored : Stored allowed v) (h : v.reached calls = true) :
    exact limits calls v = .ok () := by
  induction hstored generalizing calls with
  | none | bool truth | float x | str htext => cases calls <;> [cases h; rfl]
  | int hwhole =>
      apply exact_int.2
      refine ⟨?_, fun _ => hwhole⟩
      cases calls <;> [cases h; exact Nat.succ_pos _]
  | list hitems ih =>
      cases calls with
      | zero => cases h
      | succ calls =>
          rw [Value.reached, reachedItems_eq, List.all_eq_true] at h
          exact exact_sequence.2 ⟨calls, rfl, fun item hitem => ih item hitem (h item hitem)⟩
  | dict honce hnames hheld ih =>
      cases calls with
      | zero => cases h
      | succ calls =>
          rw [Value.reached, reachedHeld_eq, List.all_eq_true] at h
          exact exact_dict.2 ⟨calls, rfl, fun entry hentry => ih entry hentry (h entry hentry)⟩

theorem every_stored {allowed : Nat → Bool} {v : Value F} (hstored : Stored allowed v) :
    v.every allowed = true := by
  induction hstored with
  | none | bool truth | float x | int hwhole => rfl
  | str htext => exact htext
  | list hitems ih =>
      rw [Value.every, everyValues_eq, List.all_eq_true]
      exact ih
  | dict honce hnames hheld ih =>
      rw [Value.every, everyHeld_eq, List.all_eq_true]
      intro entry hentry
      rcases hnames entry hentry with ⟨t, htext, hkey⟩
      rw [hkey, ih entry hentry, Bool.and_true]
      exact htext

theorem back_stored [Floats F] {allowed : Nat → Bool} {v : Value F} (hstored : Stored allowed v) :
    v.back = v := by
  induction hstored with
  | none | bool truth | float x | int hwhole | str htext => rfl
  | list hitems ih =>
      rw [back_sequence]
      congr 1
      exact (List.map_congr_left ih).trans (List.map_id _)
  | @dict entries honce hnames hheld ih =>
      have hread : Mapping.read Value.back entries = entries := Mapping.read_eq_self ih
      have hlabels : Mapping.rename (Key.str false) (Mapping.rename Key.label entries) =
          entries := by
        rw [Mapping.rename_rename]
        apply Mapping.rename_eq_self
        intro entry hentry
        rcases hnames entry hentry with ⟨t, -, hkey⟩
        rw [hkey]
        rfl
      have hnodup : (Mapping.names (Mapping.rename Key.label entries)).Nodup := by
        have hnames' : (Mapping.names entries) =
            (Mapping.names (Mapping.rename Key.label entries)).map (Key.str false) := by
          rw [← Mapping.names_rename, hlabels]
        rw [hnames'] at honce
        exact honce.of_map _
      rw [back_dict, read_readBack, hread, readBack, Mapping.build_of_nodup hnodup, hlabels]

theorem cleaned_stored [DecidableEq F] {v : Value F} (hstored : Stored holdable v) :
    v.cleaned = v := by
  induction hstored with
  | none | bool truth | float x | int hwhole => rfl
  | str htext => rw [Value.cleaned, storable_of_holdable htext]
  | list hitems ih =>
      rw [Value.cleaned, cleanedItems_eq]
      congr 1
      exact (List.map_congr_left ih).trans (List.map_id _)
  | @dict entries honce hnames hheld ih =>
      have hread : Mapping.read Value.cleaned entries = entries := Mapping.read_eq_self ih
      have hkeys : Mapping.rename escapedKey entries = entries := by
        apply Mapping.rename_eq_self
        intro entry hentry
        rcases hnames entry hentry with ⟨t, htext, hkey⟩
        rw [hkey, escapedKey, storable_of_holdable htext]
      rw [Value.cleaned, cleanedHeld_eq, hread, rekeyed, hkeys, Mapping.build_of_nodup honce]

/-! ## The settling of a payload -/

theorem utf8_printable (c : Nat) (h : 32 ≤ c) (h' : c < 127) : utf8 c = true := by
  have hlow : ¬ 0xD800 ≤ c := by omega
  simp [utf8, surrogate, hlow]

theorem holdable_printable (c : Nat) (h : 32 ≤ c) (h' : c < 127) : holdable c = true := by
  rw [holdable, utf8_printable c h h', Bool.true_and, bne_iff_ne]
  omega

section

variable [Floats F] (limits : Limits)

/-- Of a payload that passed the walk the writing refuses what the writer or the encoder does. -/
theorem written_gives {payload : Value F} (h : exact limits limits.walk payload = .ok ()) :
    Gives (written limits payload)
      (payload.taken limits id limits.write && payload.every utf8) payload.spelled := by
  have hencodes : payload.spelled.encodes = payload.every utf8 :=
    spelled_every utf8_printable payload
  have hlast : Gives (if payload.spelled.encodes then .ok payload.spelled
      else .error Refusal.valueError) (payload.every utf8) payload.spelled := by
    rw [hencodes]
    exact .guard _ _ _
  have hdumps := dumps_gives limits limits.write payload
  rw [written, h]
  exact hdumps.bind fun _ => hlast

theorem asWritten_of_taken {payload : Value F} (h : PayloadTaken limits payload) :
    asWritten limits payload = .ok payload.back := by
  rcases h with ⟨⟨derived, entries, rfl⟩, hexact, htaken, hevery⟩
  have hwritten : written limits (.dict derived entries) =
      .ok (Value.dict derived entries).spelled :=
    (written_gives limits hexact).eq_ok (by rw [htaken, hevery, Bool.and_self])
  rw [asWritten, hwritten]
  rfl

/-- Whatever the writing raises comes out of `as_written` as one refusal. -/
theorem asWritten_refuses {derived : Bool} {entries : List (Key F × Value F)} {refusal : Refusal}
    (h : written limits (.dict derived entries) = .error refusal) :
    asWritten limits (.dict derived entries) = .error .queueError := by
  rw [asWritten, h]
  cases refusal <;> rfl

theorem asWritten_of_not_taken {payload : Value F} (h : ¬ PayloadTaken limits payload) :
    asWritten limits payload = .error .queueError := by
  cases payload with
  | dict derived entries =>
      have hwritten : ∃ refusal, written limits (.dict derived entries) = .error refusal := by
        cases hexact : exact limits limits.walk (.dict derived entries) with
        | error refusal => exact ⟨refusal, by rw [written, hexact]; rfl⟩
        | ok _ =>
            apply (written_gives limits hexact).eq_error
            rw [Bool.eq_false_iff]
            intro htaken
            rw [Bool.and_eq_true] at htaken
            exact h ⟨⟨derived, entries, rfl⟩, hexact, htaken⟩
      rcases hwritten with ⟨refusal, hrefusal⟩
      exact asWritten_refuses limits hrefusal
  | _ => rfl

theorem payloadTaken_back {payload : Value F} (h : PayloadTaken limits payload)
    (hstored : Stored utf8 payload.back) : PayloadTaken limits payload.back := by
  rcases h with ⟨⟨derived, entries, rfl⟩, hexact, htaken, -⟩
  have hreached : (Value.dict derived entries).back.reached limits.walk = true :=
    reached_back (reached_of_exact hexact)
  exact ⟨⟨false, _, back_dict derived entries⟩, exact_stored hstored hreached, taken_back htaken,
    every_stored hstored⟩

/-- A payload is settled for good unless it is taken and keeps what slips through the walk. -/
theorem asWritten_canonical (payload : Value F) :
    Canonical (asWritten limits) [.queueError] utf8 payload ↔
      ¬ (PayloadTaken limits payload ∧ payload.slips id = true) := by
  by_cases h : PayloadTaken limits payload
  · have hstored : Stored utf8 payload.back ↔ payload.slips id = false :=
      stored_back utf8_printable h.2.1 h.2.2.1 h.2.2.2
    have hsettled : asWritten limits payload = .ok payload.back := asWritten_of_taken limits h
    rw [Canonical, hsettled, and_iff_right h, Bool.not_eq_true, ← hstored]
    constructor
    · exact fun hcanonical => hcanonical.1
    · intro hback
      refine ⟨hback, ?_⟩
      rw [asWritten_of_taken limits (payloadTaken_back limits h hback), back_stored hback]
  · rw [Canonical, asWritten_of_not_taken limits h]
    exact iff_of_true List.mem_cons_self fun htaken => h htaken.1

/-! ## The settling of an answer -/

variable [DecidableEq F]

/-- Of an answer that passed the walk the escaping refuses its depth and the writer what it does. -/
theorem keepable_gives {answer : Value F} (h : exact limits limits.walk answer = .ok ()) :
    Gives (keepable limits answer)
      (answer.reached limits.escape && answer.taken limits rekeyed limits.write)
      answer.cleaned.back := by
  have hdumps := (dumps_gives limits limits.write answer.cleaned).map loads
  rw [taken_cleaned] at hdumps
  rw [keepable, h]
  exact (escaped_gives h limits.escape).bind fun _ => hdumps

theorem keepable_of_taken {answer : Value F} (h : AnswerTaken limits answer) :
    keepable limits answer = .ok answer.cleaned.back :=
  (keepable_gives limits h.1).eq_ok (by rw [h.2.1, h.2.2, Bool.and_self])

theorem keepable_of_not_taken {answer : Value F} (h : ¬ AnswerTaken limits answer) :
    ∃ refusal, keepable limits answer = .error refusal := by
  cases hexact : exact limits limits.walk answer with
  | error refusal => exact ⟨refusal, by rw [keepable, hexact]; rfl⟩
  | ok _ =>
      apply (keepable_gives limits hexact).eq_error
      rw [Bool.eq_false_iff]
      intro htaken
      rw [Bool.and_eq_true] at htaken
      exact h ⟨hexact, htaken⟩

theorem mem_answeredCatches (refusal : Refusal) : refusal ∈ answeredCatches := by
  cases refusal <;> decide

theorem answerTaken_back {answer : Value F} (h : AnswerTaken limits answer)
    (hstored : Stored holdable answer.cleaned.back) :
    AnswerTaken limits answer.cleaned.back := by
  have hwalk : answer.cleaned.back.reached limits.walk = true :=
    reached_back (reached_of_exact (exact_cleaned h.1))
  refine ⟨exact_stored hstored hwalk, reached_back (reached_cleaned h.2.1), ?_⟩
  rw [← taken_cleaned, cleaned_stored hstored]
  apply taken_back
  rw [taken_cleaned]
  exact h.2.2

/-- An answer is settled for good unless it is taken and keeps what slips through the walk. -/
theorem keepable_canonical (answer : Value F) :
    Canonical (keepable limits) answeredCatches holdable answer ↔
      ¬ (AnswerTaken limits answer ∧ answer.slips rekeyed = true) := by
  by_cases h : AnswerTaken limits answer
  · have htaken : answer.cleaned.taken limits id limits.write = true := by
      rw [taken_cleaned]
      exact h.2.2
    have hstored : Stored holdable answer.cleaned.back ↔ answer.slips rekeyed = false := by
      rw [← slips_cleaned]
      exact stored_back holdable_printable (exact_cleaned h.1) htaken (every_cleaned answer)
    have hsettled : keepable limits answer = .ok answer.cleaned.back := keepable_of_taken limits h
    rw [Canonical, hsettled, and_iff_right h, Bool.not_eq_true, ← hstored]
    constructor
    · exact fun hcanonical => hcanonical.1
    · intro hback
      refine ⟨hback, ?_⟩
      rw [keepable_of_taken limits (answerTaken_back limits h hback), cleaned_stored hback,
        back_stored hback]
  · rcases keepable_of_not_taken limits h with ⟨refusal, hrefusal⟩
    rw [Canonical, hrefusal]
    exact iff_of_true (mem_answeredCatches refusal) fun htaken => h htaken.1

/--
What `as_written` and `keepable` answer is stored as it is and settles into itself, and what they
raise is what their callers are promised, on every value but those they take that keep a whole
number of a derived class past the range.
-/
theorem settled_canonical_iff (v : Value F) :
    (Canonical (asWritten limits) [.queueError] utf8 v ↔
      ¬ (PayloadTaken limits v ∧ v.slips id = true)) ∧
    (Canonical (keepable limits) answeredCatches holdable v ↔
      ¬ (AnswerTaken limits v ∧ v.slips rekeyed = true)) :=
  ⟨asWritten_canonical limits v, keepable_canonical limits v⟩

end

/-! ## A whole number of a derived class -/

/-- The floats of the whole numbers short of `10 ** 16`, spelled with a point and a zero. -/
def WholeFloat : Type := { n : Int // n.natAbs < 10 ^ 16 }

instance : DecidableEq WholeFloat := inferInstanceAs (DecidableEq { n : Int // n.natAbs < 10 ^ 16 })

instance : Floats WholeFloat where
  spelled x := decimal x.val ++ [46, 48]
  printable x c h := by
    rcases List.mem_append.1 h with hdigits | hpoint
    · exact decimal_printable hdigits
    · simp only [List.mem_cons, List.not_mem_nil, or_false] at hpoint
      omega

/-- A thousand calls and as many levels, and the digits python starts with. -/
def startingLimits : Limits := ⟨1000, 1000, 1000, 4300⟩

/-- One argument, or one thing answered, of a class derived from `int` or not. -/
def counted (derived : Bool) : Value WholeFloat :=
  .dict false [(.str false [110], .int derived (2 ^ 70))]

/-- A whole number of a derived class is settled into one that is refused. -/
theorem derived_whole_slips :
    (asWritten startingLimits (counted true) = .ok (counted false) ∧
      asWritten startingLimits (counted false) = .error .queueError ∧
      ¬ Canonical (asWritten startingLimits) [.queueError] utf8 (counted true)) ∧
    keepable startingLimits (counted true) = .ok (counted false) ∧
      keepable startingLimits (counted false) = .error .queueError ∧
      ¬ Canonical (keepable startingLimits) answeredCatches holdable (counted true) := by
  have hpayload : asWritten startingLimits (counted true) = .ok (counted false) := rfl
  have hagain : asWritten startingLimits (counted false) = .error .queueError := rfl
  have hanswer : keepable startingLimits (counted true) = .ok (counted false) := rfl
  have hanswered : keepable startingLimits (counted false) = .error .queueError := rfl
  refine ⟨⟨hpayload, hagain, ?_⟩, hanswer, hanswered, ?_⟩
  · rw [Canonical, hpayload]
    rintro ⟨-, hsame⟩
    rw [hagain] at hsame
    cases hsame
  · rw [Canonical, hanswer]
    rintro ⟨-, hsame⟩
    rw [hanswered] at hsame
    cases hsame

end Queuefy.Json
