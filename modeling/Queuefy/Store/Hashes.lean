import Queuefy.Store.RedisSpec

/-! # Reading a hash

Redis answers the fields of a hash in an order of its own, as pairs to a client and as one flat
array out of a script. Both are read back into the same fields by what each is called.
-/

namespace Queuefy

variable {V : Type}

open RedisStore (toHash toRun toRun_toHash)

/-- What a field is called in the hash. -/
def Field.text : Field → String
  | .id => "id"
  | .key => "key"
  | .name => "name"
  | .queue => "queue"
  | .payload => "payload"
  | .status => "status"
  | .priority => "priority"
  | .dueAt => "due_at"
  | .attempts => "attempts"
  | .maxAttempts => "max_attempts"
  | .timeout => "timeout"
  | .retryPolicy => "retry_policy"
  | .retryDelay => "retry_delay"
  | .maxRetryDelay => "max_retry_delay"
  | .worker => "worker"
  | .leaseUntil => "lease_until"
  | .createdAt => "created_at"
  | .startedAt => "started_at"
  | .finishedAt => "finished_at"
  | .result => "result"
  | .error => "error"
  | .errorType => "error_type"

/-- The fields in the order `to_hash` writes them. -/
def Field.all : List Field :=
  [.id, .key, .name, .queue, .payload, .status, .priority, .dueAt, .attempts, .maxAttempts,
   .timeout, .retryPolicy, .retryDelay, .maxRetryDelay, .worker, .leaseUntil, .createdAt,
   .startedAt, .finishedAt, .result, .error, .errorType]

theorem Field.find_text (field : Field) :
    Field.all.find? (fun other => other.text = field.text) = some field := by
  cases field <;> decide

theorem Field.text_injective {a b : Field} (h : a.text = b.text) : a = b := by
  have hfind := Field.find_text a
  rw [h, Field.find_text b] at hfind
  exact (Option.some.inj hfind).symm

namespace Hash

/-- `fields_of`: of two pairs of one name a `dict` keeps the last. -/
def fieldsOf (pairs : List (String × String)) : Hash := fun field =>
  pairs.reverse.lookup field.text

/-- `paired`: every field of a flat array with what follows it. -/
def paired (flat : List String) : Hash :=
  fieldsOf (pairs flat)
where
  pairs : List String → List (String × String)
    | name :: value :: rest => (name, value) :: pairs rest
    | _ => []

/-- What `HGETALL` answers of a hash whose fields stand in an order. -/
def listed (h : Hash) (order : List Field) : List (String × String) :=
  order.filterMap fun field => (h field).map fun value => (field.text, value)

/-- The same out of a script, one flat array. -/
def flat (h : Hash) (order : List Field) : List String :=
  (h.listed order).flatMap fun pair => [pair.1, pair.2]

theorem mem_listed {h : Hash} {order : List Field} {name value : String} :
    (name, value) ∈ h.listed order ↔ ∃ field ∈ order, h field = some value ∧ field.text = name := by
  simp [listed]

/-- Whatever order the fields come in, they read back as the hash. -/
theorem fieldsOf_listed (h : Hash) {order : List Field} (horder : ∀ field, field ∈ order) :
    fieldsOf (h.listed order) = h := by
  funext field
  cases hvalue : h field with
  | none =>
      rw [fieldsOf, List.lookup_eq_none_iff]
      intro pair hpair
      obtain ⟨other, -, hother, htext⟩ := mem_listed.1 (List.mem_reverse.1 hpair)
      rw [bne_iff_ne]
      intro hsame
      have heq := Field.text_injective (hsame.trans htext.symm)
      rw [← heq, hvalue] at hother
      cases hother
  | some value =>
      have hmem : (field.text, value) ∈ (h.listed order).reverse :=
        List.mem_reverse.2 (mem_listed.2 ⟨field, horder field, hvalue, rfl⟩)
      cases hfound : fieldsOf (h.listed order) field with
      | none =>
          have hnone := List.lookup_eq_none_iff.1 hfound _ hmem
          simp at hnone
      | some other =>
          obtain ⟨before, after, hsplit, -⟩ := List.lookup_eq_some_iff.1 hfound
          have hother : (field.text, other) ∈ (h.listed order).reverse := by
            rw [hsplit]
            simp
          obtain ⟨found, -, hheld, htext⟩ := mem_listed.1 (List.mem_reverse.1 hother)
          rw [Field.text_injective htext, hvalue] at hheld
          exact hheld.symm

theorem pairs_flat (listing : List (String × String)) :
    paired.pairs (listing.flatMap fun pair => [pair.1, pair.2]) = listing := by
  induction listing with
  | nil => rfl
  | cons pair rest ih => simpa [paired.pairs] using ih

theorem paired_flat (h : Hash) {order : List Field} (horder : ∀ field, field ∈ order) :
    paired (h.flat order) = h := by
  rw [paired, flat, pairs_flat, fieldsOf_listed h horder]

end Hash

/-- The hash of an id reads back as a run, both ways it is read and in every order its fields may
come in. -/
def ReadsBack (codec : Codec V) (s : Redis) (id : String) (run : Run V) : Prop :=
  ∃ stored, s.runs id = some stored ∧ ∀ order : List Field, (∀ field, field ∈ order) →
    toRun codec (Hash.fieldsOf (stored.listed order)) = some ⟨run, id⟩ ∧
      toRun codec (Hash.paired (stored.flat order)) = some ⟨run, id⟩

theorem Represents.readsBack {codec : Codec V} {rows : Rows String V} {s : Redis}
    (hR : Represents codec rows s) {id : String} {run : Run V} (hrow : rows id = some run)
    (hrun : Spelled run) : ReadsBack codec s id run := by
  refine ⟨toHash codec id run, hR.runs_eq hrow, fun order horder => ?_⟩
  rw [Hash.fieldsOf_listed _ horder, Hash.paired_flat _ horder]
  exact ⟨toRun_toHash codec id hrun, toRun_toHash codec id hrun⟩

end Queuefy
