import Queuefy.App.Settled

/-! # Entries that settle into one

Settling writes every key of a mapping as a text, and an answer with its texts escaped first. Two
keys written as one text are one member once they are read back, and one of the two entries is
gone without a word. Where no two keys of any mapping are, what is settled has the shape of what
was handed in, entry for entry.
-/

namespace Queuefy.Json

variable {F : Type}

/-! ## The shape of a value -/

mutual

/--
A value settled with nothing lost: every sequence a list of as many items, every mapping a mapping
of as many entries, each the settled form of the one in its place under its name, and anything
else what it is settled into on its own.
-/
def Value.Kept (name : Key F → Text) (settled : Value F → Value F) : Value F → Value F → Prop
  | .sequence _ _ items, w => ∃ items', w = .sequence .list false items' ∧
      KeptItems name settled items items'
  | .dict _ entries, w => ∃ entries', w = .dict false entries' ∧
      entries'.length = entries.length ∧ KeptHeld name settled entries entries'
  | .none, w => w = settled .none
  | .bool truth, w => w = settled (.bool truth)
  | .int derived n, w => w = settled (.int derived n)
  | .float x, w => w = settled (.float x)
  | .nonfinite, w => w = settled .nonfinite
  | .str derived t, w => w = settled (.str derived t)
  | .other, w => w = settled .other
  | .itself, w => w = settled .itself

def Value.KeptItems (name : Key F → Text) (settled : Value F → Value F) :
    List (Value F) → List (Value F) → Prop
  | [], [] => True
  | item :: rest, item' :: rest' => item.Kept name settled item' ∧
      KeptItems name settled rest rest'
  | [], _ :: _ | _ :: _, [] => False

def Value.KeptHeld (name : Key F → Text) (settled : Value F → Value F) :
    List (Key F × Value F) → List (Key F × Value F) → Prop
  | [], [] => True
  | (key, held) :: rest, (key', held') :: rest' => key' = .str false (name key) ∧
      held.Kept name settled held' ∧ KeptHeld name settled rest rest'
  | [], _ :: _ | _ :: _, [] => False

end

mutual

/-- Whether no two keys of any mapping in a value are written as one text. -/
def Value.unfolded (name : Key F → Text) : Value F → Bool
  | .sequence _ _ items => unfoldedItems name items
  | .dict _ entries =>
      decide (entries.map fun entry => name entry.1).Nodup && unfoldedHeld name entries
  | .none | .bool _ | .int _ _ | .float _ | .nonfinite | .str _ _ | .other | .itself => true

def Value.unfoldedItems (name : Key F → Text) : List (Value F) → Bool
  | [] => true
  | item :: rest => item.unfolded name && unfoldedItems name rest

def Value.unfoldedHeld (name : Key F → Text) : List (Key F × Value F) → Bool
  | [] => true
  | (_, held) :: rest => held.unfolded name && unfoldedHeld name rest

end

theorem unfoldedItems_eq (name : Key F → Text) (items : List (Value F)) :
    Value.unfoldedItems name items = items.all (Value.unfolded name) := by
  induction items with
  | nil => rfl
  | cons item rest ih => rw [Value.unfoldedItems, List.all_cons, ih]

theorem unfoldedHeld_eq (name : Key F → Text) (entries : List (Key F × Value F)) :
    Value.unfoldedHeld name entries = entries.all fun entry => entry.2.unfolded name := by
  induction entries with
  | nil => rfl
  | cons entry rest ih => rw [Value.unfoldedHeld, List.all_cons, ih]

theorem keptItems_map {name : Key F → Text} {settled : Value F → Value F}
    {items : List (Value F)} :
    Value.KeptItems name settled items (items.map settled) ↔
      ∀ item ∈ items, item.Kept name settled (settled item) := by
  induction items with
  | nil => simp [Value.KeptItems]
  | cons item rest ih => rw [List.map_cons, Value.KeptItems, ih, List.forall_mem_cons]

theorem keptHeld_map {name : Key F → Text} {settled : Value F → Value F}
    {entries : List (Key F × Value F)} :
    Value.KeptHeld name settled entries
        (entries.map fun entry => (.str false (name entry.1), settled entry.2)) ↔
      ∀ entry ∈ entries, entry.2.Kept name settled (settled entry.2) := by
  induction entries with
  | nil => simp [Value.KeptHeld]
  | cons entry rest ih =>
      rw [List.map_cons, Value.KeptHeld, ih, List.forall_mem_cons]
      exact and_iff_right rfl

/-! ## A settling that folds keys -/

/--
What the two settlings have in common: a sequence becomes the list of its settled items, a mapping
one of its settled entries, folded under their names, and the folding leaves entries of different
names alone and shortens any others.
-/
structure Folding (name : Key F → Text) (settled : Value F → Value F)
    (fold : List (Key F × Value F) → List (Text × Value F)) : Prop where
  sequence : ∀ form derived items,
    settled (.sequence form derived items) = .sequence .list false (items.map settled)
  dict : ∀ derived entries, settled (.dict derived entries) =
    .dict false (Mapping.rename (Key.str false) (fold (Mapping.read settled entries)))
  same : ∀ {entries}, (Mapping.names (Mapping.rename name entries)).Nodup →
    fold entries = Mapping.rename name entries
  once : ∀ {entries}, (fold entries).length = entries.length →
    (Mapping.names (Mapping.rename name entries)).Nodup

namespace Folding

variable {name : Key F → Text} {settled : Value F → Value F}
  {fold : List (Key F × Value F) → List (Text × Value F)}

theorem dict_of_nodup (h : Folding name settled fold) {derived : Bool}
    {entries : List (Key F × Value F)} (hnodup : (entries.map fun entry => name entry.1).Nodup) :
    settled (.dict derived entries) =
      .dict false (entries.map fun entry => (.str false (name entry.1), settled entry.2)) := by
  have hnames : (Mapping.names (Mapping.rename name (Mapping.read settled entries))).Nodup := by
    rw [Mapping.names_rename, Mapping.names_read, Mapping.names, List.map_map]
    exact hnodup
  rw [h.dict, h.same hnames]
  simp [Mapping.rename, Mapping.read]

theorem nodup_of_length (h : Folding name settled fold) {derived : Bool}
    {entries entries' : List (Key F × Value F)}
    (hdict : settled (.dict derived entries) = .dict false entries')
    (hlength : entries'.length = entries.length) :
    (entries.map fun entry => name entry.1).Nodup := by
  rw [h.dict] at hdict
  injection hdict with _ hentries
  have hfold : (fold (Mapping.read settled entries)).length =
      (Mapping.read settled entries).length := by
    rw [← hentries] at hlength
    simpa [Mapping.rename, Mapping.read] using hlength
  have hnodup := h.once hfold
  rw [Mapping.names_rename, Mapping.names_read, Mapping.names, List.map_map] at hnodup
  exact hnodup

theorem kept_iff (h : Folding name settled fold) (v : Value F) :
    v.Kept name settled (settled v) ↔ v.unfolded name = true := by
  induction v using Value.induct with
  | none | bool truth | int derived n | float x | nonfinite | str derived t | other | itself =>
      exact iff_of_true rfl rfl
  | sequence form derived items ih =>
      rw [Value.unfolded, unfoldedItems_eq, List.all_eq_true, Value.Kept, h.sequence]
      have hitems : (∀ item ∈ items, item.Kept name settled (settled item)) ↔
          ∀ item ∈ items, item.unfolded name = true :=
        forall₂_congr ih
      rw [← hitems, ← keptItems_map]
      constructor
      · rintro ⟨items', heq, hkept⟩
        injection heq with _ _ heq
        rwa [heq]
      · exact fun hkept => ⟨_, rfl, hkept⟩
  | dict derived entries ih =>
      rw [Value.unfolded, unfoldedHeld_eq, Bool.and_eq_true, decide_eq_true_eq, List.all_eq_true,
        Value.Kept]
      have hheld : (∀ entry ∈ entries, entry.2.Kept name settled (settled entry.2)) ↔
          ∀ entry ∈ entries, entry.2.unfolded name = true :=
        forall₂_congr ih
      rw [← hheld, ← keptHeld_map]
      constructor
      · rintro ⟨entries', heq, hlength, hkept⟩
        have hnodup := h.nodup_of_length heq hlength
        rw [h.dict_of_nodup hnodup] at heq
        injection heq with _ heq
        exact ⟨hnodup, heq ▸ hkept⟩
      · rintro ⟨hnodup, hkept⟩
        rw [h.dict_of_nodup hnodup]
        exact ⟨_, rfl, List.length_map _, hkept⟩

end Folding

/-! ## The two settlings -/

/-- The text the key of an answer is read back as. -/
def answerName [Floats F] (key : Key F) : Text := (escapedKey key).label

theorem payload_folding [Floats F] :
    Folding (F := F) Key.label Value.back readBack where
  sequence := back_sequence
  dict derived entries := by rw [back_dict, read_readBack]
  same hnodup := by rw [readBack, Mapping.build_of_nodup hnodup]
  once hlength := by
    apply Mapping.nodup_of_length_build
    rw [← readBack, hlength, Mapping.rename, List.length_map]

theorem answer_folding [DecidableEq F] [Floats F] :
    Folding (F := F) answerName (fun answer => answer.cleaned.back)
      (fun entries => readBack (rekeyed entries)) where
  sequence form derived items := by
    rw [Value.cleaned, back_sequence, cleanedItems_eq, List.map_map]
    rfl
  dict derived entries := by
    rw [Value.cleaned, back_dict, cleanedHeld_eq, read_readBack, read_rekeyed, Mapping.read_read]
  same := by
    intro entries hnodup
    have htwice : Mapping.rename Key.label (Mapping.rename escapedKey entries) =
        Mapping.rename answerName entries :=
      Mapping.rename_rename escapedKey Key.label entries
    have hkeys : (Mapping.names (Mapping.rename escapedKey entries)).Nodup := by
      rw [← htwice, Mapping.names_rename] at hnodup
      exact hnodup.of_map _
    rw [rekeyed, Mapping.build_of_nodup hkeys, readBack, htwice, Mapping.build_of_nodup hnodup]
  once := by
    intro entries hlength
    have hread : (readBack (rekeyed entries)).length ≤ (rekeyed entries).length := by
      have hle := Mapping.length_build_le (Mapping.rename Key.label (rekeyed entries))
      rwa [Mapping.rename, List.length_map] at hle
    have hrekeyed : (rekeyed entries).length ≤ entries.length := by
      have hle := Mapping.length_build_le (Mapping.rename escapedKey entries)
      rwa [Mapping.rename, List.length_map] at hle
    have hkeys : (Mapping.names (Mapping.rename escapedKey entries)).Nodup := by
      apply Mapping.nodup_of_length_build
      rw [← rekeyed, Mapping.rename, List.length_map]
      omega
    have hsame : rekeyed entries = Mapping.rename escapedKey entries :=
      Mapping.build_of_nodup hkeys
    have htwice : Mapping.rename Key.label (rekeyed entries) =
        Mapping.rename answerName entries := by
      rw [hsame]
      exact Mapping.rename_rename escapedKey Key.label entries
    rw [← htwice]
    apply Mapping.nodup_of_length_build
    rw [← readBack, hlength, Mapping.rename, List.length_map, hsame, Mapping.rename,
      List.length_map]

section

variable [Floats F] (limits : Limits)

theorem asWritten_kept_iff (payload : Value F) :
    (∀ settled, asWritten limits payload = .ok settled →
        payload.Kept Key.label Value.back settled) ↔
      ¬ (PayloadTaken limits payload ∧ payload.unfolded Key.label = false) := by
  rw [← Bool.not_eq_true, ← payload_folding.kept_iff]
  by_cases h : PayloadTaken limits payload
  · rw [asWritten_of_taken limits h, and_iff_right h, not_not]
    constructor
    · exact fun hkept => hkept _ rfl
    · intro hkept settled hsettled
      cases hsettled
      exact hkept
  · rw [asWritten_of_not_taken limits h]
    exact iff_of_true (fun settled hsettled => by cases hsettled) fun htaken => h htaken.1

/-- An answer keeps its shape where it is refused, or no two of its keys are escaped or written as
one. -/
theorem keepable_kept_iff [DecidableEq F] (answer : Value F) :
    (∀ settled, keepable limits answer = .ok settled →
        answer.Kept answerName (fun answer => answer.cleaned.back) settled) ↔
      ¬ (AnswerTaken limits answer ∧ answer.unfolded answerName = false) := by
  rw [← Bool.not_eq_true, ← answer_folding.kept_iff]
  by_cases h : AnswerTaken limits answer
  · rw [keepable_of_taken limits h, and_iff_right h, not_not]
    constructor
    · exact fun hkept => hkept _ rfl
    · intro hkept settled hsettled
      cases hsettled
      exact hkept
  · rcases keepable_of_not_taken limits h with ⟨refusal, hrefusal⟩
    rw [hrefusal]
    exact iff_of_true (fun settled hsettled => by cases hsettled) fun htaken => h htaken.1

/--
What is settled has the shape of what was handed in, entry for entry, unless it is taken and two
keys of one mapping in it are written as one text.
-/
theorem settled_shape_iff [DecidableEq F] (v : Value F) :
    ((∀ settled, asWritten limits v = .ok settled → v.Kept Key.label Value.back settled) ↔
      ¬ (PayloadTaken limits v ∧ v.unfolded Key.label = false)) ∧
    ((∀ settled, keepable limits v = .ok settled →
        v.Kept answerName (fun answer => answer.cleaned.back) settled) ↔
      ¬ (AnswerTaken limits v ∧ v.unfolded answerName = false)) :=
  ⟨asWritten_kept_iff limits v, keepable_kept_iff limits v⟩

end

/-! ## Two keys written as one -/

/-- A mapping keyed by the number one and by the text of it. -/
def twiceOne : Value WholeFloat :=
  .dict false [(.int false 1, .bool true), (.str false [49], .bool false)]

/-- A mapping keyed by a lone surrogate and by the text that surrogate is escaped into. -/
def twiceEscaped : Value WholeFloat :=
  .dict false [(.str false [0xDCC3], .bool true),
    (.str false [92, 117, 100, 99, 99, 51], .bool false)]

/-- One of two arguments is gone from a payload, and one of two entries from an answer. -/
theorem keys_fold :
    (asWritten startingLimits twiceOne = .ok (.dict false [(.str false [49], .bool false)]) ∧
      ¬ ∀ settled, asWritten startingLimits twiceOne = .ok settled →
        twiceOne.Kept Key.label Value.back settled) ∧
    keepable startingLimits twiceEscaped =
        .ok (.dict false [(.str false [92, 117, 100, 99, 99, 51], .bool false)]) ∧
      ¬ ∀ settled, keepable startingLimits twiceEscaped = .ok settled →
        twiceEscaped.Kept answerName (fun answer => answer.cleaned.back) settled := by
  have hpayload : asWritten startingLimits twiceOne =
      .ok (.dict false [(.str false [49], .bool false)]) := rfl
  have hanswer : keepable startingLimits twiceEscaped =
      .ok (.dict false [(.str false [92, 117, 100, 99, 99, 51], .bool false)]) := rfl
  refine ⟨⟨hpayload, fun h => ?_⟩, hanswer, fun h => ?_⟩
  · rcases h _ hpayload with ⟨entries, heq, hlength, -⟩
    cases heq
    cases hlength
  · rcases h _ hanswer with ⟨entries, heq, hlength, -⟩
    cases heq
    cases hlength

end Queuefy.Json
