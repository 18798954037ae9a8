import Mathlib

/-! # A mapping built from pairs

A mapping that keeps its names in the order they came, built one pair after another: a name it
holds already is answered the new value where it stands, and any other goes to the end. What is
read off such a mapping, value by value, is the mapping built from what is read off the pairs.
-/

namespace Mapping

variable {κ α β : Type}

/-- The names of a mapping, in order. -/
def names (mapping : List (κ × α)) : List κ :=
  mapping.map Prod.fst

/-- A mapping read value by value: every name still stands for what it stood for. -/
def read (f : α → β) (pairs : List (κ × α)) : List (κ × β) :=
  pairs.map fun pair => (pair.1, f pair.2)

@[simp] theorem read_cons (f : α → β) (pair : κ × α) (pairs : List (κ × α)) :
    read f (pair :: pairs) = (pair.1, f pair.2) :: read f pairs := rfl

theorem read_read {γ : Type} (f : α → β) (g : β → γ) (pairs : List (κ × α)) :
    read g (read f pairs) = read (fun held => g (f held)) pairs := by
  simp [read]

theorem read_congr {f g : α → β} {pairs : List (κ × α)}
    (h : ∀ pair ∈ pairs, f pair.2 = g pair.2) : read f pairs = read g pairs :=
  List.map_congr_left fun pair hpair => by rw [h pair hpair]

/-- A mapping read under other names. -/
def rename {ν : Type} (f : κ → ν) (pairs : List (κ × α)) : List (ν × α) :=
  pairs.map fun pair => (f pair.1, pair.2)

theorem read_rename {ν : Type} (f : κ → ν) (g : α → β) (pairs : List (κ × α)) :
    read g (rename f pairs) = rename f (read g pairs) := by
  simp [read, rename]

theorem rename_rename {ν μ : Type} (f : κ → ν) (g : ν → μ) (pairs : List (κ × α)) :
    rename g (rename f pairs) = rename (fun name => g (f name)) pairs := by
  simp [rename]

theorem read_eq_self {f : α → α} {pairs : List (κ × α)} (h : ∀ pair ∈ pairs, f pair.2 = pair.2) :
    read f pairs = pairs :=
  (read_congr (g := id) h).trans (List.map_id pairs)

theorem rename_eq_self {f : κ → κ} {pairs : List (κ × α)}
    (h : ∀ pair ∈ pairs, f pair.1 = pair.1) : rename f pairs = pairs := by
  calc rename f pairs = pairs.map id :=
        List.map_congr_left fun pair hpair => by rw [h pair hpair]; rfl
    _ = pairs := List.map_id pairs

@[simp] theorem names_read (f : α → β) (pairs : List (κ × α)) :
    names (read f pairs) = names pairs := by
  simp [names, read]

theorem names_rename {ν : Type} (f : κ → ν) (pairs : List (κ × α)) :
    names (rename f pairs) = (names pairs).map f := by
  simp [names, rename]

/-- What holds of everything a read mapping holds is what holds of everything it is read off. -/
theorem forall_mem_read (f : α → β) (pairs : List (κ × α)) (P : β → Prop) :
    (∀ pair ∈ read f pairs, P pair.2) ↔ ∀ pair ∈ pairs, P (f pair.2) :=
  List.forall_mem_map

theorem forall_mem_rename {ν : Type} (f : κ → ν) (pairs : List (κ × α)) (P : α → Prop) :
    (∀ pair ∈ rename f pairs, P pair.2) ↔ ∀ pair ∈ pairs, P pair.2 :=
  List.forall_mem_map

variable [DecidableEq κ]

/-- A name given a value: where it stands already, or at the end. -/
def put (name : κ) (held : α) : List (κ × α) → List (κ × α)
  | [] => [(name, held)]
  | entry :: rest =>
      if entry.1 = name then (entry.1, held) :: rest else entry :: put name held rest

/-- The pairs put down one after another into a mapping that is there already. -/
def add (mapping pairs : List (κ × α)) : List (κ × α) :=
  pairs.foldl (fun mapping pair => put pair.1 pair.2 mapping) mapping

/-- The mapping of a list of pairs: every name once, and the last value it was given. -/
def build (pairs : List (κ × α)) : List (κ × α) :=
  add [] pairs

theorem add_cons (mapping : List (κ × α)) (pair : κ × α) (pairs : List (κ × α)) :
    add mapping (pair :: pairs) = add (put pair.1 pair.2 mapping) pairs := rfl

theorem read_put (f : α → β) (name : κ) (held : α) (mapping : List (κ × α)) :
    read f (put name held mapping) = put name (f held) (read f mapping) := by
  induction mapping with
  | nil => rfl
  | cons entry rest ih =>
      by_cases hname : entry.1 = name
      · simp [put, hname]
      · simp [put, hname, ih]

theorem read_add (f : α → β) (mapping pairs : List (κ × α)) :
    read f (add mapping pairs) = add (read f mapping) (read f pairs) := by
  induction pairs generalizing mapping with
  | nil => rfl
  | cons pair pairs ih =>
      rw [add_cons, ih, read_put, read_cons, add_cons]

/-- Building first and reading after is reading first and building after. -/
theorem read_build (f : α → β) (pairs : List (κ × α)) :
    read f (build pairs) = build (read f pairs) :=
  read_add f [] pairs

/-! ## What a mapping holds -/

theorem mem_put {name : κ} {held : α} {mapping : List (κ × α)} {entry : κ × α}
    (h : entry ∈ put name held mapping) : entry = (name, held) ∨ entry ∈ mapping := by
  induction mapping with
  | nil => exact .inl (List.mem_singleton.1 h)
  | cons first rest ih =>
      by_cases hname : first.1 = name
      · rw [put, if_pos hname] at h
        rcases List.mem_cons.1 h with rfl | hrest
        · exact .inl (by rw [hname])
        · exact .inr (List.mem_cons_of_mem _ hrest)
      · rw [put, if_neg hname] at h
        rcases List.mem_cons.1 h with rfl | hrest
        · exact .inr List.mem_cons_self
        · exact (ih hrest).imp id (List.mem_cons_of_mem _)

theorem mem_add {mapping pairs : List (κ × α)} {entry : κ × α}
    (h : entry ∈ add mapping pairs) : entry ∈ mapping ∨ entry ∈ pairs := by
  induction pairs generalizing mapping with
  | nil => exact .inl h
  | cons pair pairs ih =>
      rcases ih h with hput | hpairs
      · rcases mem_put hput with rfl | hmapping
        · exact .inr List.mem_cons_self
        · exact .inl hmapping
      · exact .inr (List.mem_cons_of_mem _ hpairs)

/-- A mapping holds nothing its pairs did not. -/
theorem mem_of_mem_build {pairs : List (κ × α)} {entry : κ × α} (h : entry ∈ build pairs) :
    entry ∈ pairs :=
  (mem_add h).resolve_left (List.not_mem_nil)

theorem mem_names_put {name : κ} {held : α} {mapping : List (κ × α)} {found : κ} :
    found ∈ names (put name held mapping) ↔ found = name ∨ found ∈ names mapping := by
  induction mapping with
  | nil => simp [names, put]
  | cons entry rest ih =>
      by_cases hname : entry.1 = name
      · simp [names, put, hname]
      · have ih' : found ∈ List.map Prod.fst (put name held rest) ↔
            found = name ∨ found ∈ List.map Prod.fst rest := ih
        simp only [names, put, if_neg hname, List.map_cons, List.mem_cons, ih']
        constructor
        · rintro (h | h | h)
          · exact .inr (.inl h)
          · exact .inl h
          · exact .inr (.inr h)
        · rintro (h | h | h)
          · exact .inr (.inl h)
          · exact .inl h
          · exact .inr (.inr h)

theorem nodup_put {name : κ} {held : α} {mapping : List (κ × α)} (h : (names mapping).Nodup) :
    (names (put name held mapping)).Nodup := by
  induction mapping with
  | nil => simp [names, put]
  | cons entry rest ih =>
      have hsplit : entry.1 ∉ names rest ∧ (names rest).Nodup := List.nodup_cons.1 h
      by_cases hname : entry.1 = name
      · rw [put, if_pos hname]
        exact List.nodup_cons.2 hsplit
      · rw [put, if_neg hname]
        apply List.nodup_cons.2
        refine ⟨fun hmem => ?_, ih hsplit.2⟩
        rcases mem_names_put.1 hmem with heq | hrest
        · exact hname heq
        · exact hsplit.1 hrest

theorem nodup_add {mapping pairs : List (κ × α)} (h : (names mapping).Nodup) :
    (names (add mapping pairs)).Nodup := by
  induction pairs generalizing mapping with
  | nil => exact h
  | cons pair pairs ih => exact ih (nodup_put h)

/-- A mapping holds no name twice. -/
theorem nodup_build (pairs : List (κ × α)) : (names (build pairs)).Nodup :=
  nodup_add List.nodup_nil

theorem mem_names_add {mapping pairs : List (κ × α)} {found : κ} :
    found ∈ names (add mapping pairs) ↔ found ∈ names mapping ∨ found ∈ names pairs := by
  induction pairs generalizing mapping with
  | nil => simp [add, names]
  | cons pair pairs ih =>
      have hcons : found ∈ names (pair :: pairs) ↔ found = pair.1 ∨ found ∈ names pairs :=
        List.mem_cons
      rw [add_cons, ih, mem_names_put, hcons, or_assoc, or_left_comm]

/-- A mapping names what its pairs name. -/
theorem mem_names_build {pairs : List (κ × α)} {found : κ} :
    found ∈ names (build pairs) ↔ found ∈ names pairs := by
  have hmem : found ∈ names (build pairs) ↔
      found ∈ names ([] : List (κ × α)) ∨ found ∈ names pairs := mem_names_add
  simpa [names] using hmem

/-- A mapping has as many entries as its pairs have names. -/
theorem length_build (pairs : List (κ × α)) :
    (build pairs).length = (names pairs).dedup.length := by
  have hperm : (names (build pairs)).Perm (names pairs).dedup := by
    apply (List.perm_ext_iff_of_nodup (nodup_build pairs) (List.nodup_dedup _)).2
    intro found
    rw [mem_names_build, List.mem_dedup]
  rw [← hperm.length_eq, names, List.length_map]

theorem length_build_le (pairs : List (κ × α)) : (build pairs).length ≤ pairs.length := by
  have hsub : (names pairs).dedup.length ≤ (names pairs).length :=
    (List.dedup_sublist _).length_le
  rw [length_build]
  simpa [names] using hsub

/-- A mapping with an entry for every pair was given no name twice. -/
theorem nodup_of_length_build {pairs : List (κ × α)} (h : (build pairs).length = pairs.length) :
    (names pairs).Nodup := by
  have hlength : (names pairs).dedup.length = (names pairs).length := by
    rw [← length_build, h, names, List.length_map]
  rw [← (List.dedup_sublist (names pairs)).eq_of_length hlength]
  exact List.nodup_dedup _

/-! ## A mapping built again -/

theorem put_of_not_mem {name : κ} {held : α} {mapping : List (κ × α)}
    (h : name ∉ names mapping) : put name held mapping = mapping ++ [(name, held)] := by
  induction mapping with
  | nil => rfl
  | cons entry rest ih =>
      have hsplit : name ≠ entry.1 ∧ name ∉ names rest := by
        simpa [names] using h
      rw [put, if_neg (Ne.symm hsplit.1), ih hsplit.2, List.cons_append]

theorem add_of_nodup {mapping pairs : List (κ × α)} (h : (names (mapping ++ pairs)).Nodup) :
    add mapping pairs = mapping ++ pairs := by
  induction pairs generalizing mapping with
  | nil => exact (List.append_nil mapping).symm
  | cons pair pairs ih =>
      have hfresh : pair.1 ∉ names mapping := by
        intro hmem
        rw [names, List.map_append, List.nodup_append] at h
        exact h.2.2 pair.1 hmem pair.1 List.mem_cons_self rfl
      rw [add_cons, put_of_not_mem hfresh, ih (by simpa using h)]
      simp

/-- Pairs that name nothing twice are their own mapping. -/
theorem build_of_nodup {pairs : List (κ × α)} (h : (names pairs).Nodup) : build pairs = pairs :=
  add_of_nodup h

end Mapping
