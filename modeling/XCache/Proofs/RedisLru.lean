import XCache.RedisLru

/-!
# What an insertion says, and what it does

`insert_lru` returns the answer to its existence test before it has stored anything, and the test is
of a key that is made of the `std::string` object: where it returns true, the entry is stored only
if it was before. `insert_meta` writes `cache_size` before it knows whether the field was there,
writes there what `%s` makes of the text, and writes nothing else. `Ready` tells, of the store
before, when the two do what their answers say.
-/

namespace XCache

namespace RedisLru

open RedisAdapter (Str deserialize)

variable {s t : Store} (vararg : Vararg)

/-- The strings a value is made of. -/
def Value.Contains : Value → Str → Prop
  | .string str, v => str = v
  | .hash fields, v => ∃ field, fields field = some v
  | .other, _ => False

/-- Under the entry's key a value is stored from which its fields are recovered. -/
def Stored (s : Store) (entry : CacheLRU) : Prop :=
  ∃ value str, s entry.key = some value ∧ value.Contains str
    ∧ ∀ vals, deserialize [.uint64, .uint64, .string] str vals
        = some (true, (entry.size, entry.downloadTime, entry.hash, ()))

/-- `lru_meta` holds the argument's fields. -/
def MetaStored (s : Store) (m : MetaLRU) : Prop :=
  ∃ fields, s lruMeta = some (.hash fields)
    ∧ fields cacheSizeField = some (toStr m.cacheSize.toNat)
    ∧ fields maxSizeField = some (toStr m.maxSize.toNat)
    ∧ fields sequenceField = some (toStr m.sequence.toInt)

/-- What the call answers is true. -/
def Truthful (s : Store) : Action → Prop
  | .insertLru vararg entry =>
    ((step s (.insertLru vararg entry)).1 = .ok (.bool true) →
        Stored (step s (.insertLru vararg entry)).2 entry)
      ∧ ((step s (.insertLru vararg entry)).1 = .ok (.bool false) →
        s entry.key ≠ none ∧ (step s (.insertLru vararg entry)).2 = s)
  | .insertMeta vararg m =>
    ((step s (.insertMeta vararg m)).1 = .error .metaExists →
        (step s (.insertMeta vararg m)).2 lruMeta = s lruMeta)
      ∧ ((step s (.insertMeta vararg m)).1 = .ok .unit →
        MetaStored (step s (.insertMeta vararg m)).2 m)

/-- Of an entry: its key exists, and so does the key that is asked for, or that one does not and the
entry is stored already. Of `lru_meta`: it is no hash, or its `cache_size` is what is written, or it
is the only one of the three that is missing, and what is written is its text. -/
def Ready (s : Store) : Action → Prop
  | .insertLru vararg entry =>
    if s (vararg entry.key) = none then Stored s entry else s entry.key ≠ none
  | .insertMeta vararg m =>
    match s lruMeta with
    | none => False
    | some (.hash fields) =>
      fields cacheSizeField = some (vararg (toStr m.cacheSize.toNat))
        ∨ (fields cacheSizeField = none
          ∧ vararg (toStr m.cacheSize.toNat) = toStr m.cacheSize.toNat
          ∧ fields maxSizeField = some (toStr m.maxSize.toNat)
          ∧ fields sequenceField = some (toStr m.sequence.toInt))
    | some (.string _) | some .other => True

/-! ## The constructor -/

theorem commandSingle_eq (s : Store) (wanted : Wanted) (cmd : Command) :
    outcome (commandSingle wanted cmd) s
      = outcome (replyProc wanted (serve s cmd).1) (serve s cmd).2 := rfl

/-- The constructor asks for an `int`, which `reply_proc` never returns. -/
theorem construct_throws (s : Store) :
    ∃ reply, outcome construct s = (.error (.unexpectedType reply), s) :=
  ⟨_, outcome_bind_error (commandSingle_eq s _ _) _⟩

/-! ## `insert_lru` -/

/-- `insert_lru` answers whether the key it asks for is new, and changes nothing. -/
theorem insertLru_step (s : Store) (entry : CacheLRU) :
    step s (.insertLru vararg entry) = (.ok (.bool (s (vararg entry.key) = none)), s) := by
  have h : outcome (insertLru vararg entry) s
      = (.ok (decide (s (vararg entry.key) = none)), s) := by
    rw [insertLru, outcome_bind_ok (commandSingle_eq s _ _)]
    rcases s (vararg entry.key) with _ | value <;> rfl
  exact outcome_map _ h

theorem insertLru_truthful_iff (s : Store) (entry : CacheLRU) :
    Truthful s (.insertLru vararg entry) ↔ Ready s (.insertLru vararg entry) := by
  simp only [Truthful, Ready, insertLru_step]
  by_cases h : s (vararg entry.key) = none
  · simp [h]
  · simp [h]

/-- Also if the characters of the key were read, `insert_lru` would be right only where it has
nothing to insert. -/
theorem insertLru_ready_iff (s : Store) {entry : CacheLRU} (h : vararg entry.key = entry.key) :
    Ready s (.insertLru vararg entry) ↔ s entry.key ≠ none := by
  simp only [Ready, h]
  split_ifs with hnone
  · refine iff_of_false (fun ⟨value, str, hv, _⟩ => ?_) fun hne => hne hnone
    rw [hnone] at hv
    simp at hv
  · rfl

/-! ## `insert_meta` -/

/-- Where `lru_meta` is missing or a hash, the field is written, and the answer says whether it was
there. -/
theorem insertMeta_step (s : Store) (m : MetaLRU) :
    step s (.insertMeta vararg m)
      = match s lruMeta with
        | none => (.ok .unit, Function.update s lruMeta (some (.hash
            (Function.update (fun _ => none) cacheSizeField
              (some (vararg (toStr m.cacheSize.toNat)))))))
        | some (.hash fields) =>
          (if (fields cacheSizeField).isSome then .error .metaExists else .ok .unit,
            Function.update s lruMeta (some (.hash
              (Function.update fields cacheSizeField (some (vararg (toStr m.cacheSize.toNat)))))))
        | some (.string _) | some .other => (.error .commandError, s) := by
  have hserve : ∀ {reply t res},
      serve s (.hset lruMeta cacheSizeField (vararg (toStr m.cacheSize.toNat))) = (reply, t) →
      outcome (replyProc .integer reply) t = (.ok res, t) →
      outcome (insertMeta vararg m) s = outcome (do
        checkError res
        throwIf (checkValue res 0 = true) .metaExists) t := by
    intro reply t res hs hres
    have h := commandSingle_eq s .integer
      (.hset lruMeta cacheSizeField (vararg (toStr m.cacheSize.toNat)))
    rw [hs] at h
    rw [insertMeta, outcome_bind_ok (h.trans hres)]
  rcases hm : s lruMeta with _ | str | fields | _
  · exact outcome_map _ (hserve (by rw [serve, hm]) rfl)
  · exact outcome_map _ (hserve (by rw [serve, hm]) rfl)
  · have hs : serve s (.hset lruMeta cacheSizeField (vararg (toStr m.cacheSize.toNat)))
        = (.integer (if (fields cacheSizeField).isSome then 0 else 1), Function.update s lruMeta
          (some (.hash (Function.update fields cacheSizeField
            (some (vararg (toStr m.cacheSize.toNat))))))) := by rw [serve, hm]
    simp only []
    rcases hfield : fields cacheSizeField with _ | size
    · rw [hfield] at hs
      exact outcome_map _ (hserve hs rfl)
    · rw [hfield] at hs
      exact outcome_map _ (hserve hs rfl)
  · exact outcome_map _ (hserve (by rw [serve, hm]) rfl)

theorem insertMeta_truthful_iff (s : Store) (m : MetaLRU) :
    Truthful s (.insertMeta vararg m) ↔ Ready s (.insertMeta vararg m) := by
  have hmax : maxSizeField ≠ cacheSizeField := by decide
  have hseq : sequenceField ≠ cacheSizeField := by decide
  simp only [Truthful, Ready, insertMeta_step]
  rcases hm : s lruMeta with _ | str | fields | _
  · simp [MetaStored, hmax]
  · simp
  · rcases hfield : fields cacheSizeField with _ | size
    · simp [MetaStored, hfield, hmax, hseq]
    · -- the field is overwritten: it is what it was if it was what is written
      have hsame : Function.update fields cacheSizeField
            (some (vararg (toStr m.cacheSize.toNat))) = fields
          ↔ size = vararg (toStr m.cacheSize.toNat) := by
        rw [Function.update_eq_self_iff, hfield, Option.some.injEq]
        exact eq_comm
      simp [hfield, hsame]
  · simp

/-- On every store, and for every sequence of insertions, whatever `%s` reads in each: the answers
are true exactly as long as each insertion finds what `Ready` tells. -/
theorem inserts_truthful_iff (s : Store) (as : List Action) :
    RunOk step Truthful s as ↔ RunOk step Ready s as := by
  have hiff : ∀ s a, Truthful s a ↔ Ready s a := fun s a => by
    cases a with
    | insertMeta vararg m => exact insertMeta_truthful_iff vararg s m
    | insertLru vararg entry => exact insertLru_truthful_iff vararg s entry
  exact ⟨RunOk.mono (fun s a => (hiff s a).1) s as, RunOk.mono (fun s a => (hiff s a).2) s as⟩

/-- Insertions into an empty store, where `%s` reads an address: they answer that the entry, and
the meta data, are stored. -/
theorem insert_stores_nothing :
    ¬ RunOk step Truthful (fun _ => none)
        [.insertLru (fun _ => [0x70, 0x56, 0x34, 0x12, 0xfe, 0x7f]) ⟨[97], 1, 0, []⟩]
      ∧ ¬ RunOk step Truthful (fun _ => none)
        [.insertMeta (fun _ => [0x70, 0x56, 0x34, 0x12, 0xfe, 0x7f]) ⟨1, 10, 0⟩] := by
  refine ⟨fun h => ?_, fun h => ?_⟩
  · obtain ⟨value, str, hv, -⟩ := h.1.1 (by decide)
    cases hv
  · obtain ⟨fields, hf, -, hmax, -⟩ := h.1.2 (by decide)
    cases hf
    cases hmax

end RedisLru

end XCache
