import Queuefy.Store.Names
import Queuefy.Store.Scripts

/-! # Two stores on one server

The server holds values under keys and knows nothing of stores. A call of a store is one step that
reads and writes under the keys of that store; a count is a number of looks, each at what its
pattern meets by then. Two stores whose keys and patterns never meet answer, whatever the order
their steps come in, as each of them would on a server of its own.
-/

namespace Queuefy.Names

/-- What the server holds under a key. -/
inductive Value
  | hash (fields : Hash)
  | sorted (entries : SortedSet String Int)
  | text (value : String)
  | counter (n : Nat)

abbrev Keyspace := String → Option Value

/-- What a store owns, by what each of its keys is for. -/
abbrev Owned := Key → Option Value

/-- One step of a store on the server. -/
inductive Turn (α : Type)
  | call (op : Owned → α × Owned)
  | look (tally : Keyspace → α)

variable {α : Type}

/-- The server once a store has written what it owns. -/
noncomputable def write (root : String) (owned : Owned) (s : Keyspace) : Keyspace := fun key =>
  open Classical in if h : ∃ k, keyOf root k = key then owned h.choose else s key

noncomputable def perform (signed : Bool) (root : String) : Turn α → Keyspace → α × Keyspace
  | .call op, s =>
      let (answer, owned) := op fun k => s (keyOf root k)
      (answer, write root owned s)
  | .look tally, s => (tally fun key => if meets signed root key then s key else none, s)

/-- The answers of one store that has the server to itself. -/
noncomputable def alone (signed : Bool) (root : String) : List (Turn α) → Keyspace → List α
  | [], _ => []
  | turn :: rest, s =>
      (perform signed root turn s).1 :: alone signed root rest (perform signed root turn s).2

/-- The answers of each of two stores, their steps in any order. -/
noncomputable def together (signed : Bool) (root other : String) :
    List (Turn α ⊕ Turn α) → Keyspace → List α × List α
  | [], _ => ([], [])
  | .inl turn :: rest, s =>
      let (left, right) := together signed root other rest (perform signed root turn s).2
      ((perform signed root turn s).1 :: left, right)
  | .inr turn :: rest, s =>
      let (left, right) := together signed root other rest (perform signed other turn s).2
      (left, (perform signed other turn s).1 :: right)

/-- The server with the keys of one store on it and no others. -/
noncomputable def only (root : String) (s : Keyspace) : Keyspace := fun key =>
  open Classical in if ∃ k, keyOf root k = key then s key else none

/-- Every key there is belongs to one of the two stores. -/
def Tenanted (root other : String) (s : Keyspace) : Prop :=
  ∀ key, s key ≠ none → (∃ k, keyOf root k = key) ∨ ∃ k, keyOf other k = key

/-- Two stores that never meet. -/
structure Separate (signed : Bool) (root other : String) : Prop where
  /-- Within each, two things never share a key. -/
  own : Function.Injective (keyOf root) ∧ Function.Injective (keyOf other)
  apart : ∀ a b, keyOf root a ≠ keyOf other b
  unmet : ∀ b, meets signed root (keyOf other b) = false
  unmet_other : ∀ a, meets signed other (keyOf root a) = false
  alone : ∀ (α : Type) (turns : List (Turn α ⊕ Turn α)) (s : Keyspace), Tenanted root other s →
    together signed root other turns s =
      (alone signed root (turns.filterMap Sum.getLeft?) (only root s),
        alone signed other (turns.filterMap Sum.getRight?) (only other s))

/-! ## The calls of the store as such steps -/

/-- A sorted set as it is read; one that is not there holds nothing. -/
def members : Option Value → SortedSet String Int
  | some (.sorted entries) => entries
  | _ => .empty

/-- The store as its scripts see it, read off its keys. -/
def redisOf (owned : Owned) : Redis where
  runs id :=
    match owned (.run id) with
    | some (.hash fields) => some fields
    | _ => none
  sets
    | .queue queue level =>
        if h : queue ≠ "" ∧ '\x00' ∉ queue.toList then
          match intOf level with
          | some priority =>
              if priority.repr = level then members (owned (.lane ⟨queue, h.1, h.2⟩ priority))
              else .empty
          | none => .empty
        else .empty
    | .leased => members (owned .leased)
    | .settled => members (owned .settled)
  priorities queue :=
    if h : queue ≠ "" ∧ '\x00' ∉ queue.toList then members (owned (.priorities ⟨queue, h.1, h.2⟩))
    else .empty
  keys key :=
    if h : key ≠ "" ∧ '\x00' ∉ key.toList then
      match owned (.reservation ⟨key, h.1, h.2⟩) with
      | some (.text value) => some value
      | _ => none
    else none
  sequence :=
    match owned .sequence with
    | some (.counter n) => n
    | _ => 0

/-- A sorted set nothing is in is no key at all. -/
def sorted (s : SortedSet String Int) : Option Value :=
  if s.entries = [] then none else some (.sorted s)

def ownedOf (s : Redis) : Owned
  | .run id => (s.runs id).map .hash
  | .lane queue priority => sorted (s.sets (.queue queue.text priority.repr))
  | .priorities queue => sorted (s.priorities queue.text)
  | .reservation key => (s.keys key.text).map .text
  | .leased => sorted (s.sets .leased)
  | .settled => sorted (s.sets .settled)
  | .sequence => if s.sequence = 0 then none else some (.counter s.sequence)

/-- A call of the store, on the keys it owns. -/
def calling {V : Type} (codec : Codec V) (request : Request String V) : Turn (Answer String V) :=
  .call fun owned =>
    let (answer, s) := RedisStore.perform codec (redisOf owned) request
    (answer, ownedOf s)

/-- Every lane, every list of priorities and every reservation is under a name. -/
structure Proper (s : Redis) : Prop where
  sets : ∀ queue level, s.sets (.queue queue level) ≠ .empty →
    queue ≠ "" ∧ '\x00' ∉ queue.toList ∧ ∃ priority : Int, level = priority.repr
  priorities : ∀ queue, s.priorities queue ≠ .empty → queue ≠ "" ∧ '\x00' ∉ queue.toList
  keys : ∀ key, s.keys key ≠ none → key ≠ "" ∧ '\x00' ∉ key.toList

theorem members_sorted (s : SortedSet String Int) : members (sorted s) = s := by
  unfold sorted
  split
  · rename_i h
    obtain ⟨entries, nodup⟩ := s
    cases h
    rfl
  · rfl

theorem redisOf_ownedOf {s : Redis} (h : Proper s) : redisOf (ownedOf s) = s := by
  obtain ⟨runs, sets, priorities, keys, sequence⟩ := s
  simp only [redisOf, ownedOf, Redis.mk.injEq]
  refine ⟨?_, ?_, ?_, ?_, ?_⟩
  · funext id
    cases runs id with
    | none => rfl
    | some fields => rfl
  · funext set
    cases set with
    | queue queue level =>
        have hproper := h.sets queue level
        dsimp only
        split
        · cases hlevel : intOf level with
          | none =>
              by_contra hne
              obtain ⟨-, -, priority, rfl⟩ := hproper fun heq => hne heq.symm
              simp at hlevel
          | some priority =>
              dsimp only
              split
              · rename_i hrepr
                rw [hrepr]
                exact members_sorted _
              · rename_i hrepr
                by_contra hne
                obtain ⟨-, -, written, rfl⟩ := hproper fun heq => hne heq.symm
                rw [intOf_repr, Option.some.injEq] at hlevel
                exact hrepr (by rw [hlevel])
        · rename_i hname
          by_contra hne
          obtain ⟨hgiven, hnul, -⟩ := hproper fun heq => hne heq.symm
          exact hname ⟨hgiven, hnul⟩
    | leased => exact members_sorted _
    | settled => exact members_sorted _
  · funext queue
    split
    · exact members_sorted _
    · rename_i hname
      by_contra hne
      exact hname (h.priorities queue fun heq => hne heq.symm)
  · funext key
    split
    · cases keys key with
      | none => rfl
      | some value => rfl
    · rename_i hname
      by_contra hne
      exact hname (h.keys key fun heq => hne heq.symm)
  · by_cases hzero : sequence = 0
    · simp [hzero]
    · simp [hzero]

/-! ## Stores that never meet -/

theorem write_keyOf {root : String} (owned : Owned) (s : Keyspace) (k : Key) :
    write root owned s (keyOf root k) = owned k := by
  unfold write
  have h : ∃ k', keyOf root k' = keyOf root k := ⟨k, rfl⟩
  rw [dif_pos h, keyOf_injective root h.choose_spec]

theorem write_of_ne {root : String} (owned : Owned) (s : Keyspace) {key : String}
    (h : ∀ k, keyOf root k ≠ key) : write root owned s key = s key := by
  unfold write
  rw [dif_neg]
  exact fun ⟨k, hk⟩ => h k hk

/-- Two servers are one to a store that reads its own keys and what its pattern meets. -/
def Same (signed : Bool) (root : String) (s u : Keyspace) : Prop :=
  (∀ k, s (keyOf root k) = u (keyOf root k)) ∧ ∀ key, meets signed root key = true → s key = u key

section

variable {signed : Bool} {root other : String}

theorem Same.perform {s u : Keyspace} (h : Same signed root s u) (turn : Turn α) :
    (perform signed root turn s).1 = (perform signed root turn u).1 ∧
      Same signed root (perform signed root turn s).2 (perform signed root turn u).2 := by
  cases turn with
  | call op =>
      have hview : (fun k => s (keyOf root k)) = fun k => u (keyOf root k) := funext h.1
      refine ⟨congrArg (fun view => (op view).1) hview, fun k => ?_, fun key hkey => ?_⟩
      · show write root _ s _ = write root _ u _
        rw [hview, write_keyOf, write_keyOf]
      · show write root _ s _ = write root _ u _
        by_cases howned : ∃ k, keyOf root k = key
        · obtain ⟨k, rfl⟩ := howned
          rw [hview, write_keyOf, write_keyOf]
        · have hne : ∀ k, keyOf root k ≠ key := fun k hk => howned ⟨k, hk⟩
          rw [write_of_ne _ _ hne, write_of_ne _ _ hne, h.2 key hkey]
  | look tally =>
      refine ⟨?_, h⟩
      show tally _ = tally _
      congr 1
      funext key
      split
      · rename_i hkey
        exact h.2 key hkey
      · rfl

/-- A step of the other store changes nothing the first one reads. -/
theorem same_perform (hapart : ∀ a b, keyOf root a ≠ keyOf other b)
    (hunmet : ∀ b, meets signed root (keyOf other b) = false) (turn : Turn α) (s : Keyspace) :
    Same signed root (perform signed other turn s).2 s := by
  cases turn with
  | look tally => exact ⟨fun _ => rfl, fun _ _ => rfl⟩
  | call op =>
      refine ⟨fun k => write_of_ne _ _ fun b h => hapart k b h.symm, fun key hkey => ?_⟩
      apply write_of_ne
      rintro b rfl
      rw [hunmet b] at hkey
      cases hkey

theorem Same.trans {s t u : Keyspace} (h : Same signed root s t) (h' : Same signed root t u) :
    Same signed root s u :=
  ⟨fun k => (h.1 k).trans (h'.1 k), fun key hkey => (h.2 key hkey).trans (h'.2 key hkey)⟩

/-- A server without the keys of the other store is the same to the first one. -/
theorem same_only (hunmet : ∀ b, meets signed root (keyOf other b) = false)
    {s : Keyspace} (h : Tenanted root other s) : Same signed root s (only root s) := by
  refine ⟨fun k => ?_, fun key hkey => ?_⟩
  · unfold only
    rw [if_pos ⟨k, rfl⟩]
  · unfold only
    by_cases howned : ∃ k, keyOf root k = key
    · rw [if_pos howned]
    · rw [if_neg howned]
      by_contra hne
      rcases h key hne with hroot | ⟨b, rfl⟩
      · exact howned hroot
      · rw [hunmet b] at hkey
        cases hkey

theorem together_eq (hapart : ∀ a b, keyOf root a ≠ keyOf other b)
    (hunmet : ∀ b, meets signed root (keyOf other b) = false)
    (hother : ∀ a, meets signed other (keyOf root a) = false) (turns : List (Turn α ⊕ Turn α))
    {s u v : Keyspace} (hu : Same signed root s u) (hv : Same signed other s v) :
    together signed root other turns s =
      (alone signed root (turns.filterMap Sum.getLeft?) u,
        alone signed other (turns.filterMap Sum.getRight?) v) := by
  induction turns generalizing s u v with
  | nil => rfl
  | cons turn rest ih =>
      cases turn with
      | inl turn =>
          obtain ⟨hanswer, hafter⟩ := hu.perform turn
          have hkept : Same signed other (perform signed root turn s).2 v :=
            (same_perform (fun a b h => hapart b a h.symm) hother turn s).trans hv
          simp only [together, ih hafter hkept, hanswer, List.filterMap_cons, Sum.getLeft?,
            Sum.getRight?, alone]
      | inr turn =>
          obtain ⟨hanswer, hafter⟩ := hv.perform turn
          have hkept : Same signed root (perform signed other turn s).2 u :=
            (same_perform hapart hunmet turn s).trans hu
          simp only [together, ih hkept hafter, hanswer, List.filterMap_cons, Sum.getLeft?,
            Sum.getRight?, alone]

theorem separate_of (hapart : ∀ a b, keyOf root a ≠ keyOf other b)
    (hunmet : ∀ b, meets signed root (keyOf other b) = false)
    (hother : ∀ a, meets signed other (keyOf root a) = false) : Separate signed root other where
  own := ⟨keyOf_injective root, keyOf_injective other⟩
  apart := hapart
  unmet := hunmet
  unmet_other := hother
  alone := by
    intro α turns s h
    have hswap : Tenanted other root s := fun key hkey => (h key hkey).symm
    exact together_eq hapart hunmet hother turns (same_only hunmet h) (same_only hother hswap)

theorem unmet_iff :
    (∀ key, meets signed root (keyOf other key) = false) ↔ ¬ Scans signed root other := by
  rw [scans_iff, not_exists]
  simp only [Bool.not_eq_true]

/-- Two stores never meet exactly when neither first word is nested in the other and the pattern of
neither can be read beside the keys of the other; of words that hold no character of a glob, the
first of these is enough. -/
theorem separate_iff (hne : root ≠ other) :
    (Separate signed root other ↔
      (¬ Nested root other ∧ ¬ Nested other root) ∧
        ¬ Scans signed root other ∧ ¬ Scans signed other root) ∧
    (Plain root → Plain other →
      (Separate signed root other ↔ ¬ Nested root other ∧ ¬ Nested other root)) := by
  have hiff : Separate signed root other ↔
      (¬ Nested root other ∧ ¬ Nested other root) ∧
        ¬ Scans signed root other ∧ ¬ Scans signed other root := by
    rw [← not_or, ← meet_iff hne]
    constructor
    · intro h
      exact ⟨fun ⟨a, b, hab⟩ => h.apart a b hab, unmet_iff.1 h.unmet, unmet_iff.1 h.unmet_other⟩
    · rintro ⟨hapart, hscan, hscan'⟩
      exact separate_of (fun a b h => hapart ⟨a, b, h⟩) (unmet_iff.2 hscan) (unmet_iff.2 hscan')
  refine ⟨hiff, fun hplain hplain' => hiff.trans ⟨fun h => h.1, fun h => ⟨h, ?_, ?_⟩⟩⟩
  · exact fun hscan => (nested_of_scans hne hplain hscan).elim h.1 h.2
  · exact fun hscan => (nested_of_scans hne.symm hplain' hscan).elim h.2 h.1

end

theorem not_nested_of_length {root other : String} (h : root.length = other.length) :
    ¬ Nested root other := by
  rintro ⟨word, -, rest, rfl, -⟩
  have hcolon : ":".length = 1 := rfl
  simp only [String.length_append, hcolon] at h
  omega

theorem separate_iff_tenants :
    Separate true "queuefy:acme" "queuefy:zeta" ∧ Separate false "queuefy:acme" "queuefy:zeta" := by
  have hne : "queuefy:acme" ≠ "queuefy:zeta" := by decide +kernel
  have hlength : "queuefy:acme".length = "queuefy:zeta".length := by decide +kernel
  have hplain : Plain "queuefy:acme" := by simp [Plain]
  have hplain' : Plain "queuefy:zeta" := by simp [Plain]
  have hapart : ¬ Nested "queuefy:acme" "queuefy:zeta" ∧ ¬ Nested "queuefy:zeta" "queuefy:acme" :=
    ⟨not_nested_of_length hlength, not_nested_of_length hlength.symm⟩
  exact ⟨((separate_iff hne).2 hplain hplain').2 hapart,
    ((separate_iff hne).2 hplain hplain').2 hapart⟩

/-- A tenant called `key` beside the store of the application that holds no tenant: the leases of
the one are the reservation of the other's run called `leased`. -/
theorem tenant_called_key_meets :
    ¬ ∀ (signed : Bool) (root other : String), root ≠ other → Separate signed root other := by
  intro h
  exact (h true "queuefy" "queuefy:key" (by decide +kernel)).apart
    (.reservation ⟨"leased", by decide +kernel, by decide +kernel⟩) .leased (by decide +kernel)

end Queuefy.Names
