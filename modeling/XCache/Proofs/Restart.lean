import XCache.Proofs.Backup
import XCache.Proofs.LruSequence
import XCache.Proofs.LfudaAging

/-!
# Restarts leave no trace

A call looks at the rows, at the record in memory and at nothing else that a restart changes
(`respects_call`). So a run with restarts between its calls is, call by call, the run of the calls
alone.
-/

namespace XCache

variable {κ τ ε α : Type} [Columns κ]

/-! ## What a call looks at -/

section Alike

variable {β : Type} {w w' : World κ τ ε}

theorem Alike.tick (h : Alike w w') (m n : ℕ) : Alike (w.tick m) (w'.tick n) :=
  ⟨h.table, h.metaMem, h.delivered, h.fails, h.fails'⟩

/-- A write to the record in memory, of what it reads there. -/
theorem respects_modifyMeta {f : World κ τ ε → Meta ε}
    (hf : ∀ w w', w.metaMem = w'.metaMem → f w = f w') :
    Respects Alike (modify fun w => { w with metaMem := f w } : Call κ τ ε Unit) :=
  .modify fun w w' h => ⟨h.table, hf w w' h.metaMem, h.delivered, h.fails, h.fails'⟩

theorem respects_statement {body : Call κ τ ε β} (h : Respects Alike body) :
    Respects Alike (statement body) := by
  intro w w' ha
  have hok : ∀ {n : ℕ} {l : List ℕ}, l = [] → n ∉ l := by
    rintro n l rfl
    exact List.not_mem_nil
  rw [outcome_statement, outcome_statement, if_neg (hok ha.fails), if_neg (hok ha.fails')]
  exact h _ _ (ha.tick 1 1)

theorem respects_writeTable (f : Table κ → Option (Table κ)) (changes : Table κ → ℕ) :
    Respects Alike (writeTable f changes : Call κ τ ε ℕ) := by
  refine respects_statement fun w w' ha => ?_
  unfold outcome
  simp only [ha.table]
  rcases f w'.table with _ | t
  · exact ⟨rfl, ha⟩
  · exact ⟨rfl, rfl, ha.metaMem, ha.delivered, ha.fails, ha.fails'⟩

theorem respects_readTable (f : Table κ → β) :
    Respects Alike (readWorld fun w : World κ τ ε => f w.table) :=
  respects_statement fun _ _ ha => ⟨congrArg (fun t => Except.ok (f t)) ha.table, ha⟩

theorem respects_removeCallback (removed : List (Cache τ)) :
    Respects Alike (removeCallback removed : Call κ τ ε Unit) :=
  .modify fun _ _ h =>
    ⟨h.table, h.metaMem, congrArg (· ++ [removed]) h.delivered, h.fails, h.fails'⟩

theorem respects_report (removed : List (Cache τ)) :
    Respects Alike (report removed : Call κ τ ε Unit) :=
  .ite (.pure ()) (respects_removeCallback removed)

end Alike

namespace Policy

variable (P : Policy κ τ ε)

theorem respects_deleteOld : Respects Alike P.deleteOld := by
  refine respects_statement fun w w' ha => ?_
  unfold outcome
  simp only [ha.table]
  rcases P.worst w'.table with _ | r
  · exact ⟨rfl, ha⟩
  · exact ⟨rfl, rfl, ha.metaMem, ha.delivered, ha.fails, ha.fails'⟩

theorem respects_querySingle (key : Bytes) : Respects Alike (P.querySingle key) :=
  respects_readTable fun t => P.getSingle (t.find (bindText key))

theorem respects_removeLoop (required : UInt64) (mark : Bytes) :
    ∀ (fuel : ℕ) (removed : List (Cache τ)) (flag : Bool),
      Respects Alike (P.removeLoop required mark fuel removed flag)
  | 0, _, _ => .throw _
  | fuel + 1, removed, flag => by
    rw [removeLoop]
    refine .read (fun w w' h => by rw [h.metaMem]) fun w => .ite ?_ ?_
    · refine P.respects_deleteOld.bind fun entry => .ite ?_ (.ite ?_ ?_)
      · exact (respects_report removed).bind fun _ => .throw _
      · exact (respects_modifyMeta fun _ _ h => by rw [h]).bind fun _ =>
          respects_removeLoop required mark fuel _ _
      · exact (respects_removeCallback _).bind fun _ => .throw _
    · exact (respects_report removed).bind fun _ => .pure flag

theorem respects_removeCache (required : UInt64) (mark : Bytes) :
    Respects Alike (P.removeCache required mark) :=
  .read (fun w w' h => by rw [h.metaMem, h.table]) fun _ =>
    .ite (.pure false) (P.respects_removeLoop required mark _ [] false)

theorem respects_updateSize (cache : Cache τ) (newSize : UInt64) :
    Respects Alike (P.updateSize cache newSize) := by
  refine .ite (.pure ()) (.bind ?_ fun aborted => .ite (.pure ()) ?_)
  · exact .ite (P.respects_removeCache _ _) (.pure false)
  · refine .read (fun w w' h => by rw [h.metaMem]) fun w => ?_
    refine (Respects.throwIf _ _).bind fun _ => ?_
    refine (respects_modifyMeta fun _ _ h => by rw [h]).bind fun _ => ?_
    exact (respects_writeTable _ _).bind fun _ => .throwIf _ _

end Policy

namespace Algo

variable (A : Algo κ τ ε α)

theorem respects_put (hr : ∀ k a, Respects Alike (A.renew k a)) (c : Cache τ) :
    Respects Alike (A.put c) := by
  refine (Respects.throwIf _ _).bind fun _ => ?_
  refine .read (fun w w' h => by rw [h.metaMem]) fun w => ?_
  refine (Respects.throwIf _ _).bind fun _ => (A.respects_querySingle _).bind fun entry => ?_
  refine .ite ((A.respects_removeCache _ _).bind fun _ => ?_) ?_
  · refine .read (fun w w' h => by rw [h.metaMem]) fun w => ?_
    refine (respects_writeTable _ _).bind fun _ => (Respects.throwIf _ _).bind fun _ => ?_
    exact (respects_modifyMeta fun _ _ h => by rw [h]).bind fun _ => .pure true
  · refine (hr _ _).bind fun _ => (Respects.throwIf _ _).bind fun _ => .ite ?_ (.pure false)
    exact (A.respects_updateSize _ _).bind fun _ => .pure false

theorem respects_update (key : Bytes) (n : UInt64) : Respects Alike (A.update key n) := by
  refine (Respects.throwIf _ _).bind fun _ => ?_
  refine .read (fun w w' h => by rw [h.metaMem]) fun w => ?_
  refine (Respects.throwIf _ _).bind fun _ => (A.respects_querySingle _).bind fun entry => ?_
  exact .ite ((A.respects_updateSize _ _).bind fun _ => .pure true) (.pure false)

theorem respects_resize (n : UInt64) : Respects Alike (A.resize n) := by
  refine (Respects.throwIf _ _).bind fun _ => ?_
  refine (respects_modifyMeta fun _ _ h => by rw [h]).bind fun _ => ?_
  exact (A.respects_removeCache _ _).bind fun _ => .pure ()

theorem respects_backup : Respects Alike A.backup := by
  refine .read (fun w w' h => by rw [h.metaMem]) fun w => respects_statement ?_
  exact fun _ _ h => ⟨rfl, h.table, h.metaMem, h.delivered, h.fails, h.fails'⟩

theorem respects_call (hr : ∀ k a, Respects Alike (A.renew k a)) :
    ∀ op : Op τ α, Respects Alike (A.call op)
  | .put c => (A.respects_put hr c).map _
  | .renew k a => (hr k a).map _
  | .update k n => (A.respects_update k n).map _
  | .resize n => (A.respects_resize n).map _
  | .query k => ((Respects.throwIf _ _).bind fun _ => A.respects_querySingle k).map _
  | .backup => A.respects_backup.map _

end Algo

/-! ## Runs with restarts -/

/-- A run of calls with restarts among them. -/
def session {ρ ι : Type} (step : World κ τ ε → ι → Except Error (Ret τ) × World κ τ ε)
    (restart : ρ → Call κ τ ε Unit) :
    World κ τ ε → ρ ⊕ ι → (Except Error Unit ⊕ Except Error (Ret τ)) × World κ τ ε :=
  interrupt step fun w r => outcome (restart r) w

/-- From `w`, the restarts among the events `es` cannot be told from the outside. -/
structure Transparent {ρ ι : Type} (step : World κ τ ε → ι → Except Error (Ret τ) × World κ τ ε)
    (restart : ρ → Call κ τ ε Unit) (w : World κ τ ε) (es : List (ρ ⊕ ι)) : Prop where
  answers : (run (session step restart) w es).1.filterMap Sum.getRight?
    = (run step w (es.filterMap Sum.getRight?)).1
  rows : (run (session step restart) w es).2.table
    = (run step w (es.filterMap Sum.getRight?)).2.table
  metaMem : (run (session step restart) w es).2.metaMem
    = (run step w (es.filterMap Sum.getRight?)).2.metaMem
  delivered : (run (session step restart) w es).2.delivered
    = (run step w (es.filterMap Sum.getRight?)).2.delivered
  /-- Every restart returns and evicts nothing. -/
  restarts : ∀ es₁ r es₂, es = es₁ ++ .inl r :: es₂ →
    let v := (run (session step restart) w es₁).2
    (outcome (restart r) v).1 = .ok () ∧ (outcome (restart r) v).2.table = v.table
      ∧ (outcome (restart r) v).2.delivered = v.delivered

/-- A run with restarts has come to `w` where the run of the calls alone has come to `w'`. -/
structure Follows (Good : Table κ → ε → Prop) (w w' : World κ τ ε) : Prop where
  alike : Alike w w'
  row : w.metaRow.isSome
  inv : Inv Good w'

namespace Follows

variable {Good : Table κ → ε → Prop} {w w' : World κ τ ε}

theorem refl {row : MetaRow} (hI : Inv Good w) (hrow : w.metaRow = some row) (hq : w.fails = []) :
    Follows Good w w :=
  ⟨⟨rfl, rfl, rfl, hq, hq⟩, by rw [hrow]; rfl, hI⟩

theorem inv_left (h : Follows Good w w') : Inv Good w := by
  obtain ⟨⟨ht, hm, -, -, -⟩, -, hs, hg, hin⟩ := h
  refine ⟨hs.of_eq ht (by rw [hm]) (by rw [hm]; exact hs.limit), ?_, ?_⟩
  · rw [ht, hm]
    exact hg
  · rw [hm]
    exact hin

theorem call {A : Algo κ τ ε α} (K : A.Keeps Good) (hr : ∀ k a, Respects Alike (A.renew k a))
    {op : Op τ α} (h : Follows Good w w') (ho : A.Admits w' op) :
    (outcome (A.call op) w).1 = (outcome (A.call op) w').1
      ∧ Follows Good (outcome (A.call op) w).2 (outcome (A.call op) w').2 := by
  obtain ⟨hres, halike⟩ := A.respects_call hr op w w' h.alike
  refine ⟨hres, halike, ?_, (Algo.call_inv K h.inv h.alike.fails' ho).1⟩
  have heff := A.call_effect h.inv_left.sound op
  have hrow := h.row
  rcases Algo.effect_metaRow heff with ⟨-, he⟩ | ⟨-, he, -, -⟩
  · rw [he]
    exact hrow
  · rw [he, Option.isSome_map]
    exact hrow

theorem restart {P : Policy κ τ ε} {Check : Meta ε → Table κ → Prop} {init : Call κ τ ε Unit}
    (hinit : ∀ w, wp init (P.InitEffect Check w) w)
    (hcheck : ∀ {w : World κ τ ε}, Inv Good w → Check w.metaMem w.table) (h : Follows Good w w') :
    wp (do
      P.backup
      modify fun w => { w with metaMem := ⟨0, 0, P.zeroExtra⟩ }
      init) (fun res v => res = .ok () ∧ Alike v w ∧ Follows Good v w') w := by
  have hI := h.inv_left
  refine wp_mono (Policy.wp_restart hinit h.alike.fails h.row hI.sound.limit hI.within
    (hcheck hI)) ?_
  rintro res v ⟨hres, hv, hrow⟩
  have hw := h.alike
  exact ⟨hres, hv, ⟨hv.table.trans hw.table, hv.metaMem.trans hw.metaMem,
    hv.delivered.trans hw.delivered, hv.fails, hw.fails'⟩, hrow, h.inv⟩

end Follows

/-- What calls and restarts do one at a time they do in a run. -/
theorem transparent {ρ ι : Type} {step : World κ τ ε → ι → Except Error (Ret τ) × World κ τ ε}
    {restart : ρ → Call κ τ ε Unit} {Good : Table κ → ε → Prop} {ok : World κ τ ε → ι → Prop}
    (hstep : ∀ w w' i, Follows Good w w' → ok w' i →
      (step w i).1 = (step w' i).1 ∧ Follows Good (step w i).2 (step w' i).2)
    (hrestart : ∀ w w' r, Follows Good w w' → (outcome (restart r) w).1 = .ok ()
      ∧ Alike (outcome (restart r) w).2 w ∧ Follows Good (outcome (restart r) w).2 w')
    {w : World κ τ ε} (hw : Follows Good w w) (es : List (ρ ⊕ ι))
    (hops : RunOk step ok w (es.filterMap Sum.getRight?)) : Transparent step restart w es := by
  have hrun := fun es hops => run_interrupt (R := Follows Good) hstep
    (fun w w' r h => (hrestart w w' r h).2.2) w w es hw hops
  obtain ⟨hans, hend⟩ := hrun es hops
  refine ⟨hans, hend.alike.table, hend.alike.metaMem, hend.alike.delivered, ?_⟩
  rintro es₁ r es₂ rfl
  rw [List.filterMap_append, runOk_append] at hops
  obtain ⟨hres, hv, -⟩ := hrestart _ _ r (hrun es₁ hops.1).2
  exact ⟨hres, hv.table, hv.delivered⟩

theorem Lru.respects_renew (key : Bytes) : Respects Alike (Lru.renew key) := by
  refine (Respects.throwIf _ _).bind fun _ => ?_
  refine .read (fun w w' h => by rw [h.metaMem]) fun w => ?_
  refine (respects_writeTable _ _).bind fun changed => .ite ?_ (.pure false)
  exact (respects_modifyMeta fun _ _ h => by rw [h]).bind fun _ => .pure true

theorem Lfuda.respects_renew (key : Bytes) (timestamp : UInt64) :
    Respects Alike (Lfuda.renew key timestamp) := by
  refine (Respects.throwIf _ _).bind fun _ => ?_
  refine (respects_readTable fun t => getTime (t.find (bindText key))).bind fun entry => ?_
  refine .ite (.read (fun w w' h => by rw [h.metaMem]) fun w => ?_) (.pure false)
  refine (respects_writeTable _ _).bind fun changed => ?_
  exact (Respects.throwIf _ _).bind fun _ => .pure true

/-- In both classes, destroying the object between calls and starting the next one on the same
database, as often as one likes, changes nothing that can be seen. -/
theorem restarts_transparent {M : UInt64} (hM : M ≠ 0) :
    (∀ es : List (Unit ⊕ Lru.Op),
      RunOk Lru.step Lru.algo.Admits (Lru.start M) (es.filterMap Sum.getRight?) →
      Transparent Lru.step (fun _ => Lru.restart) (Lru.start M) es)
    ∧ ∀ es : List (Lfuda.Resolver ⊕ (Lfuda.Resolver × Lfuda.Op)),
      RunOk Lfuda.step Lfuda.Admits (Lfuda.start M) (es.filterMap Sum.getRight?) →
      Transparent Lfuda.step Lfuda.restart (Lfuda.start M) es := by
  constructor
  · refine transparent (fun w w' op (h : Follows Lru.Good w w') ho => ?_)
      (fun w w' _ h => h.restart Lru.init_effect Lru.check)
      (.refl (Lru.inv_start hM) (Lru.start_metaRow hM) (Lru.start_fails hM))
    rw [Lru.step, Lru.step, Lru.call_eq]
    exact h.call Lru.keeps (fun k _ => Lru.respects_renew k) ho
  · refine transparent (fun w w' i (h : Follows Lfuda.Good w w') ho => ?_)
      (fun w w' R h => h.restart (Lfuda.init_effect R) (Lfuda.check R))
      (.refl (Lfuda.inv_start hM) (Lfuda.start_metaRow hM) (Lfuda.start_fails hM))
    rw [Lfuda.step, Lfuda.step, Lfuda.call_eq]
    exact h.call (Lfuda.keeps i.1) Lfuda.respects_renew ho

/-- Restarts before, between and after an insertion, an eviction and a resize. -/
theorem restarts_transparent_ten :
    Transparent Lru.step (fun _ => Lru.restart) (Lru.start 10)
      [.inl (), .inr (.put ⟨[97], 5, 0, [], ⟨0⟩⟩), .inl (), .inr (.put ⟨[98], 6, 0, [], ⟨0⟩⟩),
        .inl (), .inl (), .inr (.renew [98] ()), .inr (.resize 4), .inl ()]
    ∧ Transparent Lfuda.step Lfuda.restart (Lfuda.start 10)
      [.inl .first, .inr (.first, .put ⟨[97], 5, 0, [], ⟨1, 0, 0⟩⟩), .inl .first,
        .inr (.first, .put ⟨[98], 6, 0, [], ⟨2, 0, 0⟩⟩), .inl .first, .inl .first,
        .inr (.first, .renew [98] 3), .inr (.first, .resize 4), .inl .first] :=
  ⟨(restarts_transparent (M := 10) (by decide)).1 _ (by decide),
    (restarts_transparent (M := 10) (by decide)).2 _ (by decide)⟩

end XCache
