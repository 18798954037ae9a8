import Queuefy.Lib.Glob
import Queuefy.Lib.Lists
import Queuefy.Store.Lua

/-! # The names of the Redis keys

Every key a store owns is its own first word, a colon, and the name of what the key is for. The
words are joined and never measured, so whether two stores can meet is a question about their first
words alone, and about the pattern a count scans by.
-/

namespace Queuefy.Names

open Glob Padded

/-- The name of a queue, or the key of a run: some text, and text a store can write. -/
@[ext]
structure Name where
  text : String
  given : text ≠ ""
  writable : '\x00' ∉ text.toList

/-- What a store owns one Redis key for. The id of a run is whatever a caller asks for. -/
inductive Key
  | run (id : String)
  | lane (queue : Name) (priority : Int)
  | priorities (queue : Name)
  | reservation (key : Name)
  | leased
  | settled
  | sequence

/-- What follows the first word and its colon. -/
def Key.body : Key → String
  | .run id => "run:" ++ id
  | .lane queue priority => "queue:" ++ queue.text ++ ":" ++ priority.repr
  | .priorities queue => "priorities:" ++ queue.text
  | .reservation key => "key:" ++ key.text
  | .leased => "leased"
  | .settled => "settled"
  | .sequence => "sequence"

/-- A key of the store whose first word is `root`. -/
def keyOf (root : String) (key : Key) : String := root ++ ":" ++ key.body

/-- The pattern a count scans by. -/
def scanned (root : String) : String := root ++ ":run:*"

/-! ## The glob of the server -/

/-- The bytes a text is sent as, which are all that the server reads of it. -/
def bytes (text : String) : List UInt8 := text.toList.flatMap String.utf8EncodeChar

@[match_pattern] abbrev star : UInt8 := 0x2a
@[match_pattern] abbrev mark : UInt8 := 0x3f
@[match_pattern] abbrev opening : UInt8 := 0x5b
@[match_pattern] abbrev closing : UInt8 := 0x5d
@[match_pattern] abbrev caret : UInt8 := 0x5e
@[match_pattern] abbrev dash : UInt8 := 0x2d
@[match_pattern] abbrev backslash : UInt8 := 0x5c

/-- Whether a byte is between two others, in either order. The server compares them as numbers of
the type `char` of C, which some machines have with a sign. -/
def between (signed : Bool) (a b c : UInt8) : Bool :=
  if signed then min a.toInt8 b.toInt8 ≤ c.toInt8 && c.toInt8 ≤ max a.toInt8 b.toInt8
  else min a b ≤ c && c ≤ max a b

/-- A class as it is read: what it holds so far, and whether it stands for the rest. -/
structure Class where
  negated : Bool
  holds : UInt8 → Bool

def Class.admits (s : Class) (c : UInt8) : Bool := s.holds c != s.negated

def Class.add (s : Class) (more : UInt8 → Bool) : Class :=
  { s with holds := fun c => s.holds c || more c }

/-- A glob, token by token. The class being read, if one is open, is closed by a bracket or by the
end of the pattern. -/
def read (signed : Bool) : Option Class → List UInt8 → List (Token UInt8)
  | none, [] => []
  | none, star :: rest => .many (fun _ => true) :: read signed none rest
  | none, mark :: rest => .one (fun _ => true) :: read signed none rest
  | none, opening :: caret :: rest => read signed (some ⟨true, fun _ => false⟩) rest
  | none, opening :: rest => read signed (some ⟨false, fun _ => false⟩) rest
  | none, backslash :: c :: rest => .one (· = c) :: read signed none rest
  | none, c :: rest => .one (· = c) :: read signed none rest
  | some s, [] => [.one s.admits]
  | some s, backslash :: c :: rest => read signed (some (s.add (· = c))) rest
  | some s, closing :: rest => .one s.admits :: read signed none rest
  | some s, a :: dash :: b :: rest => read signed (some (s.add (between signed a b))) rest
  | some s, c :: rest => read signed (some (s.add (· = c))) rest

/-- Whether a key is one the scan of a count meets. -/
def meets (signed : Bool) (root key : String) : Bool :=
  accepts (read signed none (bytes (scanned root))) (bytes key)

theorem mem_utf8EncodeChar {c : Char} {b : UInt8} (h : b ∈ String.utf8EncodeChar c)
    (hb : b.toNat < 128) : c.toNat = b.toNat := by
  have hbyte : ∀ n, b = UInt8.ofNat n ↔ b.toNat = n % 256 := by
    intro n
    rw [← UInt8.toNat_inj, UInt8.toNat_ofNat']
  have hc : c.toNat = c.val.toNat := rfl
  revert h
  fun_cases String.utf8EncodeChar c with
  | case1 | case2 | case3 | case4 =>
      simp only [List.mem_cons, List.not_mem_nil, or_false, hbyte]
      omega

theorem utf8EncodeChar_append_inj {c d : Char} {u v : List UInt8}
    (h : String.utf8EncodeChar c ++ u = String.utf8EncodeChar d ++ v) : c = d ∧ u = v := by
  have hread := congrArg (fun bytes : List UInt8 => bytes.toByteArray.utf8DecodeChar? 0) h
  have hcd : c = d := by
    simpa [List.toByteArray_append, ByteArray.utf8DecodeChar?_utf8EncodeChar_append] using hread
  rw [hcd] at h
  exact ⟨hcd, List.append_cancel_left h⟩

/-- The bytes of a text begin with those of another exactly where the text does. -/
theorem flatMap_utf8_append {u w : List Char} :
    (∃ r, w.flatMap String.utf8EncodeChar = u.flatMap String.utf8EncodeChar ++ r) ↔
      ∃ r, w = u ++ r := by
  constructor
  · rintro ⟨r, h⟩
    induction u generalizing w with
    | nil => exact ⟨w, rfl⟩
    | cons c u ih =>
        cases w with
        | nil => simp [String.utf8EncodeChar_ne_nil] at h
        | cons d w =>
            rw [List.flatMap_cons, List.flatMap_cons, List.append_assoc] at h
            rcases utf8EncodeChar_append_inj h with ⟨rfl, hrest⟩
            rcases ih hrest with ⟨r, rfl⟩
            exact ⟨r, rfl⟩
  · rintro ⟨r, rfl⟩
    exact ⟨_, List.flatMap_append⟩

/-! ## Whole numbers as they are written -/

def leading (c : Char) : Bool := c.isDigit && c ≠ '0'

/-- The texts of the whole numbers: nothing, or digits led by another than a zero, or their
negatives. -/
def numerals : List (List (Token Char)) :=
  [literal ['0'], [.one leading, .many Char.isDigit],
   [.one (· = '-'), .one leading, .many Char.isDigit]]

theorem toDigits_leading {n : Nat} (h : 0 < n) : ∃ c rest, Nat.toDigits 10 n = c :: rest ∧
    leading c = true ∧ ∀ d ∈ rest, d.isDigit = true := by
  induction n using Nat.strongRecOn with
  | ind n ih =>
      by_cases hlt : n < 10
      · refine ⟨n.digitChar, [], Nat.toDigits_of_lt_base hlt, ?_, by simp⟩
        interval_cases n <;> decide
      · obtain ⟨c, rest, hdigits, hc, hrest⟩ := ih (n / 10) (by omega) (by omega)
        refine ⟨c, rest ++ [(n % 10).digitChar], ?_, hc, ?_⟩
        · rw [Nat.toDigits_of_base_le (by decide) (by omega), hdigits]
          rfl
        · intro d hd
          rcases List.mem_append.mp hd with hd | hd
          · exact hrest d hd
          · have hdigit : ∀ a < 10, (Nat.digitChar a).isDigit = true := by decide
            rw [List.mem_singleton.mp hd]
            exact hdigit _ (Nat.mod_lt n (by decide))

theorem exists_digitChar {c : Char} (h : c.isDigit = true) : ∃ a < 10, c = Nat.digitChar a := by
  unfold Char.isDigit at h
  rw [Bool.and_eq_true_iff, decide_eq_true_iff, decide_eq_true_iff] at h
  have hlow : 48 ≤ c.toNat := h.1
  have hhigh : c.toNat ≤ 57 := h.2
  refine ⟨c.toNat - 48, by omega, Char.toNat_inj.mp ?_⟩
  rw [Nat.toNat_digitChar_of_lt_ten (by omega)]
  omega

theorem exists_toDigits {c : Char} {rest : List Char} (hc : leading c = true)
    (hrest : ∀ d ∈ rest, d.isDigit = true) : ∃ n, 0 < n ∧ Nat.toDigits 10 n = c :: rest := by
  induction rest using List.reverseRecOn with
  | nil =>
      obtain ⟨hdigit, hne⟩ := Bool.and_eq_true_iff.mp hc
      obtain ⟨a, ha, rfl⟩ := exists_digitChar hdigit
      refine ⟨a, ?_, Nat.toDigits_of_lt_base ha⟩
      rcases Nat.eq_zero_or_pos a with rfl | hpos
      · cases hne
      · exact hpos
  | append_singleton rest d ih =>
      obtain ⟨n, hpos, hn⟩ := ih fun e he => hrest e (List.mem_append_left _ he)
      obtain ⟨a, ha, rfl⟩ := exists_digitChar (hrest d (List.mem_append_right _ (by simp)))
      refine ⟨10 * n + a, by omega, ?_⟩
      rw [← Nat.toDigits_append_toDigits (by decide) hpos ha, hn, Nat.toDigits_of_lt_base ha]
      rfl

theorem toList_repr_ofNat (n : Nat) : (n : Int).repr.toList = Nat.toDigits 10 n :=
  Nat.toList_repr

theorem toList_repr_neg (n : Nat) :
    (-((n + 1 : Nat) : Int)).repr.toList = '-' :: Nat.toDigits 10 (n + 1) := by
  show ("-" ++ (n + 1).repr).toList = _
  rw [String.toList_append, Nat.toList_repr]
  rfl

theorem matches_leading {text : List Char} :
    Matches [.one leading, .many Char.isDigit] text ↔
      ∃ n, 0 < n ∧ text = Nat.toDigits 10 n := by
  constructor
  · intro h
    cases h with
    | one hc hrest =>
        obtain ⟨n, hpos, hn⟩ := exists_toDigits hc (matches_all.1 hrest)
        exact ⟨n, hpos, hn.symm⟩
  · rintro ⟨n, hpos, rfl⟩
    obtain ⟨c, rest, hdigits, hc, hrest⟩ := toDigits_leading hpos
    rw [hdigits]
    exact .one hc (matches_all.2 hrest)

/-- A text matches one of the numerals exactly when it is how a whole number is written. -/
theorem numerals_iff {text : List Char} :
    (∃ p ∈ numerals, Matches p text) ↔ ∃ i : Int, text = i.repr.toList := by
  unfold numerals
  rw [List.exists_mem_cons_iff, List.exists_mem_cons_iff, List.exists_mem_cons_iff]
  constructor
  · rintro (h | h | h | h)
    · exact ⟨0, matches_literal.1 h⟩
    · obtain ⟨n, -, rfl⟩ := matches_leading.1 h
      exact ⟨n, (toList_repr_ofNat n).symm⟩
    · cases h with
      | one hc hrest =>
          obtain ⟨n, hpos, rfl⟩ := matches_leading.1 hrest
          obtain ⟨m, rfl⟩ := Nat.exists_eq_succ_of_ne_zero hpos.ne'
          rw [of_decide_eq_true hc]
          exact ⟨_, (toList_repr_neg m).symm⟩
    · simp at h
  · rintro ⟨i, rfl⟩
    cases i with
    | ofNat n =>
        cases n with
        | zero => exact Or.inl (matches_literal.2 rfl)
        | succ n =>
            exact Or.inr (Or.inl (matches_leading.2 ⟨n + 1, Nat.succ_pos n, toList_repr_ofNat _⟩))
    | negSucc n =>
        refine Or.inr (Or.inr (Or.inl ?_))
        show Matches _ (-((n + 1 : Nat) : Int)).repr.toList
        rw [toList_repr_neg]
        exact .one (decide_eq_true rfl) (matches_leading.2 ⟨n + 1, Nat.succ_pos n, rfl⟩)

/-! ## The shapes of the keys of a store -/

def written (c : Char) : Bool := c ≠ '\x00'

def text : List (Token Char) := [.one written, .many written]

theorem matches_text {k : List Char} : Matches text k ↔ ∃ name : Name, k = name.text.toList := by
  constructor
  · intro h
    cases h with
    | @one _ _ c rest hc hrest =>
        refine ⟨⟨String.ofList (c :: rest), ?_, ?_⟩, String.toList_ofList.symm⟩
        · intro h
          have := congrArg String.toList h
          simp at this
        · rw [String.toList_ofList, List.mem_cons]
          rintro (h | h)
          · exact of_decide_eq_true hc h.symm
          · exact of_decide_eq_true (matches_all.1 hrest _ h) rfl
  · rintro ⟨name, rfl⟩
    have hwritten : ∀ c ∈ name.text.toList, written c = true :=
      fun c hc => decide_eq_true fun h => name.writable (h ▸ hc)
    cases hlist : name.text.toList with
    | nil => exact absurd (String.toList_eq_nil_iff.mp hlist) name.given
    | cons c rest =>
        rw [hlist] at hwritten
        exact .one (hwritten c List.mem_cons_self)
          (matches_all.2 fun d hd => hwritten d (List.mem_cons_of_mem c hd))

/-- The shapes of the keys of the store whose first word is `root`. -/
def shapes (root : String) : List (List (Token Char)) :=
  [literal (root ++ ":run:").toList ++ [.many fun _ => true],
   literal (root ++ ":priorities:").toList ++ text,
   literal (root ++ ":key:").toList ++ text,
   literal (root ++ ":leased").toList, literal (root ++ ":settled").toList,
   literal (root ++ ":sequence").toList] ++
  numerals.map fun p => literal (root ++ ":queue:").toList ++ (text ++ (literal [':'] ++ p))

theorem matches_literal_append {α : Type} [DecidableEq α] {w k : List α} {p : List (Token α)} :
    Matches (literal w ++ p) k ↔ ∃ r, k = w ++ r ∧ Matches p r := by
  rw [matches_append]
  constructor
  · rintro ⟨u, v, rfl, hu, hv⟩
    rw [matches_literal.1 hu]
    exact ⟨v, rfl, hv⟩
  · rintro ⟨r, rfl, hr⟩
    exact ⟨w, r, rfl, matches_literal.2 rfl, hr⟩

/-- A text matches one of the shapes exactly when it is a key of the store. -/
theorem shapes_iff {root : String} {k : List Char} :
    (∃ p ∈ shapes root, Matches p k) ↔ ∃ key, k = (keyOf root key).toList := by
  constructor
  · rintro ⟨p, hp, hk⟩
    simp only [shapes, List.mem_append, List.mem_cons, List.not_mem_nil, or_false,
      List.mem_map] at hp
    rcases hp with (rfl | rfl | rfl | rfl | rfl | rfl) | ⟨q, hq, rfl⟩
    · obtain ⟨r, rfl, -⟩ := matches_literal_append.1 hk
      exact ⟨.run (String.ofList r), by simp [keyOf, Key.body]⟩
    · obtain ⟨r, rfl, hr⟩ := matches_literal_append.1 hk
      obtain ⟨name, rfl⟩ := matches_text.1 hr
      exact ⟨.priorities name, by simp [keyOf, Key.body]⟩
    · obtain ⟨r, rfl, hr⟩ := matches_literal_append.1 hk
      obtain ⟨name, rfl⟩ := matches_text.1 hr
      exact ⟨.reservation name, by simp [keyOf, Key.body]⟩
    · exact ⟨.leased, by simp [matches_literal.1 hk, keyOf, Key.body]⟩
    · exact ⟨.settled, by simp [matches_literal.1 hk, keyOf, Key.body]⟩
    · exact ⟨.sequence, by simp [matches_literal.1 hk, keyOf, Key.body]⟩
    · obtain ⟨r, rfl, hr⟩ := matches_literal_append.1 hk
      obtain ⟨u, v, rfl, hu, hv⟩ := matches_append.1 hr
      obtain ⟨name, rfl⟩ := matches_text.1 hu
      obtain ⟨d, rfl, hd⟩ := matches_literal_append.1 hv
      obtain ⟨i, rfl⟩ := numerals_iff.1 ⟨q, hq, hd⟩
      exact ⟨.lane name i, by simp [keyOf, Key.body]⟩
  · rintro ⟨key, rfl⟩
    cases key with
    | run id =>
        refine ⟨_, List.mem_append_left _ List.mem_cons_self, matches_literal_append.2
          ⟨id.toList, by simp [keyOf, Key.body], matches_all.2 fun _ _ => rfl⟩⟩
    | priorities name =>
        refine ⟨_, List.mem_append_left _ (List.mem_cons_of_mem _ List.mem_cons_self),
          matches_literal_append.2 ⟨name.text.toList, by simp [keyOf, Key.body],
            matches_text.2 ⟨name, rfl⟩⟩⟩
    | reservation name =>
        refine ⟨literal (root ++ ":key:").toList ++ text, by simp [shapes],
          matches_literal_append.2 ⟨name.text.toList, by simp [keyOf, Key.body],
            matches_text.2 ⟨name, rfl⟩⟩⟩
    | leased =>
        exact ⟨literal (root ++ ":leased").toList, by simp [shapes],
          matches_literal.2 (by simp [keyOf, Key.body])⟩
    | settled =>
        exact ⟨literal (root ++ ":settled").toList, by simp [shapes],
          matches_literal.2 (by simp [keyOf, Key.body])⟩
    | sequence =>
        exact ⟨literal (root ++ ":sequence").toList, by simp [shapes],
          matches_literal.2 (by simp [keyOf, Key.body])⟩
    | lane name i =>
        obtain ⟨q, hq, hd⟩ := numerals_iff.2 ⟨i, rfl⟩
        refine ⟨_, List.mem_append_right _ (List.mem_map_of_mem hq), matches_literal_append.2
          ⟨name.text.toList ++ ([':'] ++ i.repr.toList), by simp [keyOf, Key.body],
            matches_append.2 ⟨_, _, rfl, matches_text.2 ⟨name, rfl⟩,
              matches_literal_append.2 ⟨_, rfl, hd⟩⟩⟩⟩

/-! ## Within one store -/

theorem not_mem_repr {c : Char} (hdigit : c.isDigit = false) (hsign : c ≠ '-') (i : Int) :
    c ∉ i.repr.toList := by
  have hdigits : ∀ n, c ∉ Nat.toDigits 10 n := by
    intro n h
    rw [Nat.isDigit_of_mem_toDigits (by decide) (by decide) h] at hdigit
    cases hdigit
  cases i with
  | ofNat n =>
      show c ∉ (n : Int).repr.toList
      rw [toList_repr_ofNat]
      exact hdigits n
  | negSucc n =>
      show c ∉ (-((n + 1 : Nat) : Int)).repr.toList
      rw [toList_repr_neg, List.mem_cons]
      rintro (h | h)
      · exact hsign h
      · exact hdigits _ h

theorem colon_not_mem_repr (i : Int) : ':' ∉ i.repr.toList :=
  not_mem_repr (by decide) (by decide) i

theorem repr_injective {i j : Int} (h : i.repr.toList = j.repr.toList) : i = j := by
  apply Option.some.inj
  rw [← intOf_repr i, String.toList_injective h, intOf_repr]

theorem body_injective : Function.Injective Key.body := by
  intro a b h
  have hlist := congrArg String.toList h
  cases a with
  | run id =>
      cases b with
      | run id' =>
          rw [Key.body, Key.body, String.toList_append, String.toList_append] at hlist
          rw [String.toList_injective (List.append_cancel_left hlist)]
      | _ => simp [Key.body] at hlist
  | priorities name =>
      cases b with
      | priorities name' =>
          rw [Key.body, Key.body, String.toList_append, String.toList_append] at hlist
          rw [Name.ext (String.toList_injective (List.append_cancel_left hlist))]
      | _ => simp [Key.body] at hlist
  | reservation name =>
      cases b with
      | reservation name' =>
          rw [Key.body, Key.body, String.toList_append, String.toList_append] at hlist
          rw [Name.ext (String.toList_injective (List.append_cancel_left hlist))]
      | _ => simp [Key.body] at hlist
  | lane queue priority =>
      cases b with
      | lane queue' priority' =>
          simp only [Key.body, String.toList_append, List.append_assoc] at hlist
          obtain ⟨hqueue, hpriority⟩ := split_at_last (colon_not_mem_repr priority)
            (colon_not_mem_repr priority') (List.append_cancel_left hlist)
          rw [Name.ext (String.toList_injective hqueue), repr_injective hpriority]
      | _ => simp [Key.body] at hlist
  | leased =>
      cases b with
      | leased => rfl
      | _ => simp [Key.body] at hlist
  | settled =>
      cases b with
      | settled => rfl
      | _ => simp [Key.body] at hlist
  | sequence =>
      cases b with
      | sequence => rfl
      | _ => simp [Key.body] at hlist

theorem keyOf_injective (root : String) : Function.Injective (keyOf root) := by
  intro a b h
  apply body_injective
  have hlist := congrArg String.toList h
  simp only [keyOf, String.toList_append] at hlist
  exact String.toList_injective (List.append_cancel_left hlist)

/-! ## Between two stores -/

/-- The words a name or an id follows. -/
def words : List String := ["run", "queue", "priorities", "key"]

/-- One first word is the other, a colon and one of the words, alone or before a further colon.
What comes after that colon has to be part of a name, unless it is part of an id. -/
def Nested (root other : String) : Prop :=
  ∃ word ∈ words, ∃ rest, other = root ++ ":" ++ word ++ rest ∧
    (rest = "" ∨ ∃ more, rest = ":" ++ more ∧ (word = "run" ∨ '\x00' ∉ more.toList))

theorem split_at_first {c : Char} {w x r y : List Char} (hw : c ∉ w)
    (h : w ++ c :: x = r ++ c :: y) :
    (r = w ∧ x = y) ∨ ∃ more, r = w ++ c :: more ∧ x = more ++ c :: y := by
  rcases List.append_eq_append_iff.1 h with ⟨a, rfl, ha⟩ | ⟨a, rfl, ha⟩
  · cases a with
    | nil => exact Or.inl ⟨List.append_nil w, (List.cons.inj ha).2⟩
    | cons d a =>
        obtain ⟨rfl, rfl⟩ := List.cons.inj ha
        exact Or.inr ⟨a, rfl, rfl⟩
  · cases a with
    | nil => exact Or.inl ⟨(List.append_nil r).symm, (List.cons.inj ha).2.symm⟩
    | cons d a =>
        obtain ⟨rfl, -⟩ := List.cons.inj ha
        exact absurd (List.mem_append_right r List.mem_cons_self) hw

/-- The body of a key is one of the words, a colon and what it names, or no colon at all. -/
theorem body_cases (key : Key) :
    (∃ word ∈ words, ∃ x : List Char, key.body.toList = word.toList ++ ':' :: x ∧
      (word = "run" ∨ '\x00' ∉ x)) ∨ ':' ∉ key.body.toList := by
  cases key with
  | run id => exact Or.inl ⟨"run", by simp [words], id.toList, by simp [Key.body], Or.inl rfl⟩
  | lane queue priority =>
      refine Or.inl ⟨"queue", by simp [words],
        queue.text.toList ++ ':' :: priority.repr.toList, by simp [Key.body], Or.inr ?_⟩
      have hpriority : '\x00' ∉ priority.repr.toList :=
        not_mem_repr (by decide) (by decide) priority
      simp [queue.writable, hpriority]
  | priorities queue =>
      exact Or.inl ⟨"priorities", by simp [words], queue.text.toList, by simp [Key.body],
        Or.inr queue.writable⟩
  | reservation key =>
      exact Or.inl ⟨"key", by simp [words], key.text.toList, by simp [Key.body],
        Or.inr key.writable⟩
  | leased => exact Or.inr (by decide)
  | settled => exact Or.inr (by decide)
  | sequence => exact Or.inr (by decide)

theorem nested_of_meet {root other : String} {r : List Char}
    (h : other.toList = root.toList ++ ':' :: r) {a b : Key}
    (hmeet : keyOf root a = keyOf other b) : Nested root other := by
  have hlist := congrArg String.toList hmeet
  simp only [keyOf, String.toList_append, h, List.append_assoc] at hlist
  replace hlist := List.append_cancel_left hlist
  have hbody : a.body.toList = r ++ ':' :: b.body.toList := by simpa using hlist
  rcases body_cases a with ⟨word, hword, x, hx, hnul⟩ | hcolon
  · have hfree : ':' ∉ word.toList := by
      simp only [words, List.mem_cons, List.not_mem_nil, or_false] at hword
      rcases hword with rfl | rfl | rfl | rfl <;> decide
    rw [hx] at hbody
    rcases split_at_first hfree hbody with ⟨rfl, -⟩ | ⟨more, rfl, rfl⟩
    · refine ⟨word, hword, "", ?_, Or.inl rfl⟩
      apply String.toList_injective
      simp [h]
    · refine ⟨word, hword, ":" ++ String.ofList more, ?_, Or.inr ⟨String.ofList more, rfl, ?_⟩⟩
      · apply String.toList_injective
        simp [h]
      · rcases hnul with hrun | hnul
        · exact Or.inl hrun
        · rw [List.mem_append] at hnul
          exact Or.inr (by simpa using fun hmem => hnul (Or.inl hmem))
  · rw [hbody] at hcolon
    exact absurd (List.mem_append_right r List.mem_cons_self) hcolon

theorem exists_name {more rest : String} (hmore : '\x00' ∉ more.toList) (hgiven : rest ≠ "")
    (hrest : '\x00' ∉ rest.toList) : ∃ name : Name, name.text = more ++ rest := by
  refine ⟨⟨more ++ rest, ?_, ?_⟩, rfl⟩
  · intro h
    have hlist := congrArg String.toList h
    rw [String.toList_append] at hlist
    exact hgiven (String.toList_eq_nil_iff.mp (List.append_eq_nil_iff.mp hlist).2)
  · rw [String.toList_append, List.mem_append]
    exact fun h => h.elim hmore hrest

theorem meet_of_nested {root other : String} (h : Nested root other) :
    ∃ a b, keyOf root a = keyOf other b := by
  obtain ⟨word, hword, rest, rfl, hrest⟩ := h
  obtain ⟨more, hmore, hnul⟩ : ∃ more, (rest ++ ":").toList = (":" ++ more).toList ∧
      (word = "run" ∨ '\x00' ∉ more.toList) := by
    rcases hrest with rfl | ⟨more, rfl, hnul⟩
    · exact ⟨"", by simp, Or.inr (by decide)⟩
    · refine ⟨more ++ ":", by simp, hnul.imp_right fun h => ?_⟩
      rw [String.toList_append, List.mem_append]
      exact fun hmem => hmem.elim h (by decide)
  rw [String.toList_append, String.toList_append] at hmore
  have hread : ∀ b : Key, (keyOf (root ++ ":" ++ word ++ rest) b).toList =
      root.toList ++ ":".toList ++ word.toList ++ ":".toList ++ more.toList ++ b.body.toList := by
    intro b
    simp only [keyOf, String.toList_append, List.append_assoc]
    rw [← List.append_assoc rest.toList, hmore]
    simp only [List.append_assoc]
  have hleased : '\x00' ∉ "leased".toList := by decide
  simp only [words, List.mem_cons, List.not_mem_nil, or_false] at hword
  rcases hword with rfl | rfl | rfl | rfl
  · refine ⟨.run (more ++ "leased"), .leased, String.toList_injective ?_⟩
    rw [hread]
    simp [keyOf, Key.body]
  · have hqueue : '\x00' ∉ "queue:q".toList := by decide
    obtain ⟨name, hname⟩ := exists_name (hnul.resolve_left (by decide)) (by decide) hqueue
    refine ⟨.lane name 0, .lane ⟨"q", by decide, by decide⟩ 0, String.toList_injective ?_⟩
    rw [hread]
    simp [keyOf, Key.body, hname]
  · obtain ⟨name, hname⟩ := exists_name (hnul.resolve_left (by decide)) (by decide) hleased
    refine ⟨.priorities name, .leased, String.toList_injective ?_⟩
    rw [hread]
    simp [keyOf, Key.body, hname]
  · obtain ⟨name, hname⟩ := exists_name (hnul.resolve_left (by decide)) (by decide) hleased
    refine ⟨.reservation name, .leased, String.toList_injective ?_⟩
    rw [hread]
    simp [keyOf, Key.body, hname]

/-- Two stores under different first words share a key exactly when one word is nested in the
other. -/
theorem meet_iff {root other : String} (hne : root ≠ other) :
    (∃ a b, keyOf root a = keyOf other b) ↔ Nested root other ∨ Nested other root := by
  constructor
  · rintro ⟨a, b, h⟩
    have hlist := congrArg String.toList h
    simp only [keyOf, String.toList_append, List.append_assoc] at hlist
    rcases List.append_eq_append_iff.1 hlist with ⟨r, hr, hrest⟩ | ⟨r, hr, hrest⟩
    · cases r with
      | nil => exact absurd (String.toList_injective (by simpa using hr)).symm hne
      | cons c r =>
          obtain ⟨rfl, -⟩ := List.cons.inj hrest
          exact Or.inl (nested_of_meet hr h)
    · cases r with
      | nil => exact absurd (String.toList_injective (by simpa using hr)) hne
      | cons c r =>
          obtain ⟨rfl, -⟩ := List.cons.inj hrest
          exact Or.inr (nested_of_meet hr h.symm)
  · rintro (h | h)
    · exact meet_of_nested h
    · obtain ⟨a, b, hab⟩ := meet_of_nested h
      exact ⟨b, a, hab.symm⟩

/-! ## What a count scans -/

/-- The pattern one store scans by, read beside the shapes of the keys of the other. -/
def Scans (signed : Bool) (root other : String) : Prop :=
  ∃ p ∈ shapes other,
    Overlap String.utf8EncodeChar (read signed none (bytes (scanned root))) p

/-- The pattern of one store meets a key of the other exactly when it can be read beside one of
their shapes. -/
theorem scans_iff {signed : Bool} {root other : String} :
    Scans signed root other ↔ ∃ key, meets signed root (keyOf other key) = true := by
  unfold Scans meets
  simp only [overlap_iff, accepts_iff]
  constructor
  · rintro ⟨p, hp, k, hk, hscan⟩
    obtain ⟨key, rfl⟩ := shapes_iff.1 ⟨p, hp, hk⟩
    exact ⟨key, hscan⟩
  · rintro ⟨key, hscan⟩
    obtain ⟨p, hp, hk⟩ := shapes_iff.2 ⟨key, rfl⟩
    exact ⟨p, hp, _, hk, hscan⟩

/-- No character of a first word means anything to the glob but itself. -/
def Plain (root : String) : Prop := ∀ c ∈ root.toList, c ∉ ['*', '?', '[', '\\']

theorem Plain.bytes {root : String} (h : Plain root) :
    ∀ b ∈ bytes root, b ∉ [star, mark, opening, backslash] := by
  intro b hb hspecial
  rcases List.mem_flatMap.mp hb with ⟨c, hc, hbc⟩
  apply h c hc
  simp only [List.mem_cons, List.not_mem_nil, or_false] at hspecial ⊢
  rcases hspecial with rfl | rfl | rfl | rfl
  · exact Or.inl (Char.toNat_inj.mp (mem_utf8EncodeChar hbc (by decide)))
  · exact Or.inr (Or.inl (Char.toNat_inj.mp (mem_utf8EncodeChar hbc (by decide))))
  · exact Or.inr (Or.inr (Or.inl (Char.toNat_inj.mp (mem_utf8EncodeChar hbc (by decide)))))
  · exact Or.inr (Or.inr (Or.inr (Char.toNat_inj.mp (mem_utf8EncodeChar hbc (by decide)))))

theorem read_plain {signed : Bool} {w : List UInt8}
    (h : ∀ c ∈ w, c ∉ [star, mark, opening, backslash]) (rest : List UInt8) :
    read signed none (w ++ rest) = literal w ++ read signed none rest := by
  induction w with
  | nil => rfl
  | cons c w ih =>
      rcases List.forall_mem_cons.mp h with ⟨hc, hw⟩
      simp only [List.mem_cons, List.not_mem_nil, or_false, not_or] at hc
      rcases hc with ⟨hstar, hmark, hopen, hback⟩
      have hread : read signed none (c :: (w ++ rest)) =
          .one (· = c) :: read signed none (w ++ rest) := by
        rw [read]
        · exact hstar
        · exact hmark
        · exact fun _ h _ => hopen h
        · exact hopen
        · exact fun _ _ h _ => hback h
      rw [List.cons_append, hread, ih hw]
      rfl

/-- The pattern of a plain word meets what begins with the keys of its runs, and nothing else. -/
theorem meets_plain {signed : Bool} {root : String} (h : Plain root) {key : String} :
    meets signed root key = true ↔ ∃ r, key.toList = root.toList ++ ":run:".toList ++ r := by
  have hrun : Plain (root ++ ":run:") := by
    have hword : ∀ c ∈ ":run:".toList, c ∉ ['*', '?', '[', '\\'] := by simp
    intro c hc
    rw [String.toList_append, List.mem_append] at hc
    exact hc.elim (h c) (hword c)
  have hscanned : bytes (scanned root) = bytes (root ++ ":run:") ++ [star] := by
    have hstar : String.utf8EncodeChar '*' = [star] := by decide
    simp [bytes, scanned, hstar]
  have hpattern : read signed none (bytes (scanned root)) =
      literal (bytes (root ++ ":run:")) ++ [.many fun _ => true] := by
    rw [hscanned, read_plain hrun.bytes]
    rfl
  unfold meets
  rw [accepts_iff, hpattern, matches_literal_append, ← String.toList_append]
  constructor
  · rintro ⟨r, hr, -⟩
    exact flatMap_utf8_append.1 ⟨r, hr⟩
  · intro hkey
    rcases flatMap_utf8_append.2 hkey with ⟨r, hr⟩
    exact ⟨r, hr, matches_all.2 fun _ _ => rfl⟩

example : meets true "a??" "aé:run:1" = true ∧ meets true "a?" "aé:run:1" = false := by
  decide +kernel

/-- Of two plain words, the pattern of one meets a key of the other only where one is nested in the
other. -/
theorem nested_of_scans {signed : Bool} {root other : String} (hne : root ≠ other)
    (hplain : Plain root) (h : Scans signed root other) :
    Nested root other ∨ Nested other root := by
  obtain ⟨key, hmeets⟩ := scans_iff.1 h
  obtain ⟨r, hr⟩ := (meets_plain hplain).1 hmeets
  apply (meet_iff hne).1
  refine ⟨.run (String.ofList r), key, String.toList_injective ?_⟩
  rw [hr]
  simp [keyOf, Key.body]

end Queuefy.Names
