import LayeredConfig.Proofs.RoundTrip
/-!
# Transfers that are cut short

A transfer between two shelves of which any calls may fail. It stops at the first call that fails. Until
then every step has left each document of the target as it was, or as the whole transfer leaves it
(`Partly`), and so has the transfer itself, wherever it stops (`import_interrupted`). `Endures` says of a
run how it may end; it is composed along the steps of a transfer.
-/

namespace LayeredConfig

open World

/-! ## Calls that may fail -/

/-- A world, and the number of the next call. -/
structure Timed where
  world : World
  next : Nat

/-- A call that fails without effect if calls of its number do. -/
def attempt {α : Type} (fails : Nat → Option Failure) (x : Run World α) : Run Timed α := fun s =>
  match fails s.next with
  | some f => .error (.failure f) ⟨s.world, s.next + 1⟩
  | none =>
    match x s.world with
    | .ok a w => .ok a ⟨w, s.next + 1⟩
    | .error stop w => .error stop ⟨w, s.next + 1⟩

/-- A collection of a shelf of which some calls fail. -/
structure Unreliable where
  fails : Nat → Option Failure
  number : Nat
  collection : String

/-- The operations on it. -/
def Unreliable.storage (v : Unreliable) : Storage Timed :=
  (Store.shelf v.number v.collection).storage.lift (attempt v.fails)

instance : View Timed Unreliable where
  storage := Unreliable.storage
  collection v name := attempt v.fails (pure { v with collection := name })

namespace Unreliable

theorem storage_eq (v : Unreliable) : View.storage v = v.storage := rfl

variable (fails : Nat → Option Failure) (i : Nat) (c : String)

theorem list_eq (start : String) : (storage ⟨fails, i, c⟩).list start =
    attempt fails ((Store.shelf i c).storage.list start) := rfl

theorem readMany_eq (names : List String) : (storage ⟨fails, i, c⟩).readMany names =
    attempt fails ((Store.shelf i c).storage.readMany names) := rfl

theorem write_eq (name : String) (d : Document) : (storage ⟨fails, i, c⟩).write name d =
    attempt fails ((Store.shelf i c).storage.write name d) := rfl

theorem delete_eq (name : String) : (storage ⟨fails, i, c⟩).delete name =
    attempt fails ((Store.shelf i c).storage.delete name) := rfl

theorem collectionNames_eq : (storage ⟨fails, i, c⟩).collectionNames =
    attempt fails (Store.shelf i c).storage.collectionNames := rfl

theorem collection_eq (d : String) : View.collection (⟨fails, i, c⟩ : Unreliable) d =
    attempt fails (pure ⟨fails, i, d⟩) := rfl

end Unreliable

/-! ## How a run may end -/

section Endures

variable {fails : Nat → Option Failure} {α β ε : Type} {k m n : Nat}

/-- None of the calls from one number up to another one fails. -/
def Passed (fails : Nat → Option Failure) (m n : Nat) : Prop :=
  m ≤ n ∧ ∀ k, m ≤ k → k < n → fails k = none

theorem Passed.refl (fails : Nat → Option Failure) (n : Nat) : Passed fails n n := by
  refine ⟨Nat.le_refl n, ?_⟩
  intro k hle hlt
  omega

theorem Passed.trans (h : Passed fails k m) (h' : Passed fails m n) : Passed fails k n := by
  refine ⟨Nat.le_trans h.1 h'.1, ?_⟩
  intro l hle hlt
  by_cases hlm : l < m
  · exact h.2 l hle hlm
  · exact h'.2 l (by omega) hlt

theorem Passed.succ (h : fails n = none) : Passed fails n (n + 1) := by
  refine ⟨Nat.le_succ n, ?_⟩
  intro k hle hlt
  rw [show k = n by omega, h]

/-- A run from a call on either answers, and none of its calls fails, or it stops at the first one that
does. -/
inductive Ends (fails : Nat → Option Failure) (Q : α → World → Prop) (E : World → Prop) (n : Nat) :
    EStateM.Result Halt Timed α → Prop
  | ok {a : α} {t : Timed} : Passed fails n t.next → Q a t.world → Ends fails Q E n (.ok a t)
  | error {f : Failure} {k : Nat} {w : World} : Passed fails n k → fails k = some f → E w →
      Ends fails Q E n (.error (.failure f) ⟨w, k + 1⟩)

/-- From every world with one property, a run ends in one with another if it answers, and in one with a
third if it stops at a call that fails. -/
def Endures (fails : Nat → Option Failure) (P : World → Prop) (x : Run Timed α)
    (Q : α → World → Prop) (E : World → Prop) : Prop :=
  ∀ s : Timed, P s.world → Ends fails Q E s.next (x s)

namespace Endures

variable {P : World → Prop} {x : Run Timed α} {Q : α → World → Prop} {E : World → Prop}

theorem pure {a : α} (h : ∀ w, P w → Q a w) : Endures fails P (Pure.pure a) Q E := by
  intro s hs
  exact .ok (.refl fails s.next) (h s.world hs)

theorem bind {f : α → Run Timed β} {R : β → World → Prop} (hx : Endures fails P x Q E)
    (hf : ∀ a, Endures fails (Q a) (f a) R E) : Endures fails P (x >>= f) R E := by
  intro s hs
  have hends := hx s hs
  generalize hr : x s = r at hends
  cases hends with
  | @ok a t hpassed ha =>
    rw [Run.bind_ok hr]
    have hrest := hf a t ha
    generalize f a t = r' at hrest
    cases hrest with
    | ok hpassed' hb => exact .ok (hpassed.trans hpassed') hb
    | error hpassed' hfail hE => exact .error (hpassed.trans hpassed') hfail hE
  | error hpassed hfail hE =>
    rw [Run.bind_error hr]
    exact .error hpassed hfail hE

theorem of_imp {P' : World → Prop} {Q' : α → World → Prop} (hP : ∀ w, P' w → P w)
    (hQ : ∀ a w, Q a w → Q' a w) (h : Endures fails P x Q E) : Endures fails P' x Q' E := by
  intro s hs
  have hends := h s (hP s.world hs)
  generalize x s = r at hends
  cases hends with
  | ok hpassed ha => exact .ok hpassed (hQ _ _ ha)
  | error hpassed hfail hE => exact .error hpassed hfail hE

/-- A call that answers where it does not fail. -/
theorem attempt {y : Run World α} (hy : ∀ w, P w → ∃ a v, y w = .ok a v ∧ Q a v)
    (hE : ∀ w, P w → E w) : Endures fails P (attempt fails y) Q E := by
  intro s hs
  rw [LayeredConfig.attempt]
  cases hf : fails s.next with
  | some f => exact .error (.refl fails s.next) hf (hE s.world hs)
  | none =>
    obtain ⟨a, v, hrun, hQ⟩ := hy s.world hs
    simp only [hrun]
    exact .ok (.succ hf) hQ

/-- What is known of the answers before does not depend on the world. -/
theorem of_fact {p : Prop} (h : p → Endures fails P x Q E) :
    Endures fails (fun w => P w ∧ p) x Q E := by
  intro s hs
  exact h hs.2 s hs.1

/-- A loop, each step of which keeps a property that may depend on what is still to come. -/
theorem foldlM {I : List ε → World → Prop} {f : β → ε → Run Timed β} {es : List ε}
    (step : ∀ e ∈ es, ∀ rest b, Endures fails (I (e :: rest)) (f b e) (fun _ => I rest) E) (b : β) :
    Endures fails (I es) (es.foldlM f b) (fun _ => I []) E := by
  induction es generalizing b with
  | nil => exact pure fun w hw => hw
  | cons e es ih =>
    rw [List.foldlM_cons]
    apply bind (step e List.mem_cons_self es b)
    intro b'
    exact ih (fun e' he => step e' (List.mem_cons_of_mem e he)) b'

end Endures

end Endures

namespace Transfer

variable {i j : Nat} {c name : String} {o : Option Document} {r r' : Report} {u v w w' : World}
  {fails : Nat → Option Failure} {fresh later : String → Prop}

/-! ## What a transfer has done so far -/

/-- Each document of the target is as it was, or as the whole transfer leaves it, and nothing else has been
changed. -/
structure Partly (i j : Nat) (w u : World) : Prop where
  only : OnlyOn j w u
  documents : ∀ c name, (u.documents j c).get? name = (w.documents j c).get? name ∨
    (u.documents j c).get? name =
      settled ((w.documents j c).get? name) ((w.documents i c).get? name)

theorem Partly.refl (i j : Nat) (w : World) : Partly i j w w := ⟨.refl j w, fun _ _ => .inl rfl⟩

/-- A document becomes what the whole transfer leaves of it. -/
theorem Partly.sets (h : Partly i j w u) (hset : Sets j c name
    (settled ((w.documents j c).get? name) ((w.documents i c).get? name)) u v) : Partly i j w v where
  only := h.only.trans hset.only.toOnlyOn
  documents d other := by
    by_cases hd : d = c
    · subst hd
      by_cases hother : other = name
      · subst hother
        exact .inr hset.here
      · rw [hset.others other hother]
        exact h.documents d other
    · rw [hset.only.collections d hd]
      exact h.documents d other

/-- The same, and the collections that are still to come are as they were. -/
structure Underway (i j : Nat) (w : World) (fresh : String → Prop) (u : World) : Prop
    extends Partly i j w u where
  fresh : ∀ d, fresh d → u.documents j d = w.documents j d

theorem Underway.sets (h : Underway i j w fresh u) (hc : ¬ fresh c) (hset : Sets j c name
    (settled ((w.documents j c).get? name) ((w.documents i c).get? name)) u v) :
    Underway i j w fresh v where
  toPartly := h.toPartly.sets hset
  fresh d hd := by
    have hdc : d ≠ c := fun heq => hc (heq ▸ hd)
    rw [hset.only.collections d hdc]
    exact h.fresh d hd

theorem Underway.source (h : Underway i j w fresh u) (hne : i ≠ j) (c : String) :
    u.documents i c = w.documents i c := h.only.documents_of_ne hne c

/-- A call that only reads. -/
theorem reads_endures {α : Type} {y : Run World α} {a : α}
    (hy : ∀ u, Underway i j w fresh u → y u = .ok a u) :
    Endures fails (Underway i j w fresh) (attempt fails y)
      (fun b u => Underway i j w fresh u ∧ b = a) (Partly i j w) := by
  apply Endures.attempt
  · intro u hu
    exact ⟨a, u, hy u hu, hu, rfl⟩
  · intro u hu
    exact hu.toPartly

/-- A call that makes of one document what the whole transfer leaves of it, whatever it answers. -/
theorem sets_endures (name : String) {α : Type} {y : Run World Bool} {p q : α} (hc : ¬ fresh c)
    (hy : ∀ u, ∃ b v, y u = .ok b v ∧ Sets j c name
      (settled ((w.documents j c).get? name) ((w.documents i c).get? name)) u v) :
    Endures fails (Underway i j w fresh)
      (attempt fails y >>= fun b => if b then pure p else pure q)
      (fun _ => Underway i j w fresh) (Partly i j w) := by
  apply Endures.bind (Q := fun _ => Underway i j w fresh)
  · apply Endures.attempt
    · intro u hu
      obtain ⟨b, v, hrun, hset⟩ := hy u
      exact ⟨b, v, hrun, hu.sets hc hset⟩
    · intro u hu
      exact hu.toPartly
  · intro b
    cases b <;> exact Endures.pure fun _ hu => hu

/-! ## One collection -/

theorem copy_endures (hc : ¬ fresh c) {e : String × Document}
    (he : (w.documents i c).get? e.1 = some e.2) (r : Report) :
    Endures fails (Underway i j w fresh)
      (copy (Unreliable.storage ⟨fails, j, c⟩) (w.documents j c) r e)
      (fun _ => Underway i j w fresh) (Partly i j w) := by
  have hwrite : settled ((w.documents j c).get? e.1) ((w.documents i c).get? e.1) = some e.2 →
      ∀ p q : Report, Endures fails (Underway i j w fresh)
        (attempt fails ((Store.shelf j c).storage.write e.1 e.2) >>= fun b =>
          if b then pure p else pure q)
        (fun _ => Underway i j w fresh) (Partly i j w) := by
    intro hsettled p q
    apply sets_endures e.1 hc
    intro u
    rw [hsettled]
    exact ⟨true, _, Store.write_shelf j c u e.1 e.2, .insert u j c e.1 e.2⟩
  rw [copy, Unreliable.write_eq]
  cases hex : (w.documents j c).get? e.1 with
  | none =>
    apply hwrite
    rw [hex, he]
    rfl
  | some current =>
    simp only
    split
    · exact Endures.pure fun _ hu => hu
    · next hsame =>
      apply hwrite
      rw [hex, he, settled, if_neg hsame]

theorem prune_endures (hc : ¬ fresh c) {listed : List String}
    (hlisted : ∀ name, listed.contains name = false → (w.documents i c).get? name = none)
    (name : String) (r : Report) :
    Endures fails (Underway i j w fresh)
      (prune (Unreliable.storage ⟨fails, j, c⟩) listed r name)
      (fun _ => Underway i j w fresh) (Partly i j w) := by
  rw [prune, Unreliable.delete_eq]
  split
  · exact Endures.pure fun _ hu => hu
  · next hnot =>
    apply sets_endures name hc
    intro u
    rw [hlisted name (Bool.eq_false_iff.mpr hnot), settled_none]
    exact ⟨_, _, Store.delete_shelf j c u name, .erase u j c name⟩

/-- The two loops of a transfer of one collection, about the documents that were there at the start. -/
theorem loops_endure (hc : ¬ fresh c) {listed : List String}
    (hlisted : ∀ name, listed.contains name = false → (w.documents i c).get? name = none)
    (r : Report) :
    Endures fails (Underway i j w fresh)
      (do
        let s ← (w.documents i c).entries.foldlM
          (copy (Unreliable.storage ⟨fails, j, c⟩) (w.documents j c)) r
        (w.documents j c).keys.foldlM (prune (Unreliable.storage ⟨fails, j, c⟩) listed) s)
      (fun _ => Underway i j w fresh) (Partly i j w) := by
  apply Endures.bind (Q := fun _ => Underway i j w fresh)
  · apply Endures.foldlM (I := fun _ => Underway i j w fresh)
    intro e he _ r
    exact copy_endures hc (Dict.lookup_of_mem (Dict.ascending _) he) r
  · intro s
    apply Endures.foldlM (I := fun _ => Underway i j w fresh)
    intro name _ _ r
    exact prune_endures hc hlisted name r

/-- A transfer of one collection that was to come. -/
theorem reconcile_endures (hne : i ≠ j) (hc : fresh c) (hlater : ∀ d, later d → fresh d ∧ d ≠ c)
    (r : Report) :
    Endures fails (Underway i j w fresh)
      (reconcile (Unreliable.storage ⟨fails, i, c⟩) (Unreliable.storage ⟨fails, j, c⟩) r)
      (fun _ => Underway i j w later) (Partly i j w) := by
  have hnot : ¬ later c := fun h => (hlater c h).2 rfl
  rw [reconcile, Unreliable.list_eq, Unreliable.list_eq]
  simp only [Unreliable.readMany_eq]
  -- All four answers are about the documents that were there at the start.
  apply Endures.bind (reads_endures (a := (w.documents i c).keys.filter (·.startsWith "")) ?_)
  swap
  · intro u hu
    rw [← hu.source hne c]
    exact Store.list_shelf i c u ""
  intro listed
  apply Endures.of_fact
  rintro rfl
  apply Endures.bind (reads_endures (a := w.documents i c) ?_)
  swap
  · intro u hu
    rw [← hu.source hne c]
    exact Store.readMany_listed_shelf i c u
  intro incoming
  apply Endures.of_fact
  rintro rfl
  apply Endures.bind (reads_endures (a := (w.documents j c).keys.filter (·.startsWith "")) ?_)
  swap
  · intro u hu
    rw [← hu.fresh c hc]
    exact Store.list_shelf j c u ""
  intro names
  apply Endures.of_fact
  rintro rfl
  apply Endures.bind (reads_endures (a := w.documents j c) ?_)
  swap
  · intro u hu
    rw [← hu.fresh c hc]
    exact Store.readMany_listed_shelf j c u
  intro existing
  apply Endures.of_fact
  rintro rfl
  refine Endures.of_imp (P := Underway i j w later) ?_ (fun _ _ h => h) (loops_endure hnot ?_ r)
  · intro u hu
    exact ⟨hu.toPartly, fun d hd => hu.fresh d (hlater d hd).1⟩
  · intro name hname
    rw [Bool.eq_false_iff, ne_eq, List.contains_iff_mem, mem_listed_shelf, not_not] at hname
    exact hname

/-! ## All collections -/

theorem reconcileCollection_endures (hne : i ≠ j) {d : String} (hc : fresh c)
    (hlater : ∀ d, later d → fresh d ∧ d ≠ c) (r : Report) :
    Endures fails (Underway i j w fresh)
      (reconcileCollection (⟨fails, i, d⟩ : Unreliable) (⟨fails, j, d⟩ : Unreliable) r c)
      (fun _ => Underway i j w later) (Partly i j w) := by
  have hopen : ∀ k, Endures fails (Underway i j w fresh)
      (attempt fails (pure (⟨fails, k, c⟩ : Unreliable)))
      (fun v u => Underway i j w fresh u ∧ v = ⟨fails, k, c⟩) (Partly i j w) := by
    intro k
    apply reads_endures
    intro u _
    rfl
  rw [reconcileCollection, Unreliable.collection_eq, Unreliable.collection_eq]
  apply Endures.bind (hopen i)
  intro source
  apply Endures.of_fact
  rintro rfl
  apply Endures.bind (hopen j)
  intro target
  apply Endures.of_fact
  rintro rfl
  exact reconcile_endures hne hc hlater r

/-- The loop over the collections that are still to come. -/
theorem collections_endure (hne : i ≠ j) (cs : List String) (r : Report) :
    Endures fails (fun u => Underway i j w (· ∈ cs) u ∧ cs.Nodup)
      (cs.foldlM (reconcileCollection (⟨fails, i, Name.defaultCollection⟩ : Unreliable)
        (⟨fails, j, Name.defaultCollection⟩ : Unreliable)) r)
      (fun _ => Partly i j w) (Partly i j w) := by
  refine Endures.of_imp (fun _ h => h) ?_
    (Endures.foldlM (I := fun cs u => Underway i j w (· ∈ cs) u ∧ cs.Nodup) ?_ r)
  · intro _ u hu
    exact hu.1.toPartly
  intro c _ cs r
  apply Endures.of_fact
  intro hnodup
  obtain ⟨hnot, hnodup⟩ := List.nodup_cons.mp hnodup
  have hstep : Endures fails (Underway i j w (· ∈ c :: cs))
      (reconcileCollection (⟨fails, i, Name.defaultCollection⟩ : Unreliable)
        (⟨fails, j, Name.defaultCollection⟩ : Unreliable) r c)
      (fun _ => Underway i j w (· ∈ cs)) (Partly i j w) := by
    apply reconcileCollection_endures hne List.mem_cons_self
    intro d hd
    exact ⟨List.mem_cons_of_mem c hd, fun heq => hnot (heq ▸ hd)⟩
  exact hstep.of_imp (fun _ h => h) fun _ _ h => ⟨h, hnodup⟩

/-- Wherever a transfer stops, each document of the target is as it was, or as the whole transfer leaves
it. -/
theorem run_endures (hne : i ≠ j) (fails : Nat → Option Failure) (w : World) :
    Endures fails (· = w)
      (run (⟨fails, i, Name.defaultCollection⟩ : Unreliable)
        (⟨fails, j, Name.defaultCollection⟩ : Unreliable))
      (fun _ => Partly i j w) (Partly i j w) := by
  rw [run, Unreliable.storage_eq, Unreliable.storage_eq, Unreliable.collectionNames_eq,
    Unreliable.collectionNames_eq]
  apply Endures.bind (Q := fun _ => Underway i j w (· ≠ Name.defaultCollection))
  · have hfirst : Endures fails (Underway i j w fun _ => True)
        (reconcile (Unreliable.storage ⟨fails, i, Name.defaultCollection⟩)
          (Unreliable.storage ⟨fails, j, Name.defaultCollection⟩) .zero)
        (fun _ => Underway i j w (· ≠ Name.defaultCollection)) (Partly i j w) :=
      reconcile_endures hne trivial (fun d hd => ⟨trivial, hd⟩) .zero
    refine hfirst.of_imp ?_ fun _ _ h => h
    rintro u rfl
    exact ⟨.refl i j u, fun _ _ => rfl⟩
  intro r
  have hnames : ∀ k, Endures fails (Underway i j w (· ≠ Name.defaultCollection))
      (attempt fails (Store.shelf k Name.defaultCollection).storage.collectionNames)
      (fun _ => Underway i j w (· ≠ Name.defaultCollection)) (Partly i j w) := by
    intro k
    apply Endures.attempt
    · intro u hu
      exact ⟨_, u, Store.collectionNames_shelf k Name.defaultCollection u, hu⟩
    · intro u hu
      exact hu.toPartly
  apply Endures.bind (hnames i)
  intro ours
  apply Endures.bind (hnames j)
  intro theirs
  -- The default collection has been gone through, and is not among those to come.
  refine Endures.of_imp ?_ (fun _ _ h => h) (collections_endure hne (named ours theirs) r)
  intro u hu
  refine ⟨⟨hu.toPartly, fun d hd => hu.fresh d (mem_named.mp hd).2⟩, ?_⟩
  exact (Name.nodup_sortedUnique _).filter _

/-! ## The whole transfer -/

/-- A transfer between two shelves that do not fail answers, and leaves all documents settled. -/
theorem exists_run_shelf (i j : Nat) (w : World) :
    ∃ r w', run (Store.shelf i Name.defaultCollection) (Store.shelf j Name.defaultCollection) w =
        .ok r w' ∧
      ∀ c name, (w'.documents j c).get? name =
        settled ((w.documents j c).get? name) ((w.documents i c).get? name) := by
  obtain ⟨r, w', h⟩ := run_answers (Store.opens_shelf i) (Store.opens_shelf j) (shelf_answers i)
    (shelf_answers j) w
  obtain ⟨-, hall⟩ := run_documents (Store.opens_shelf i) (Store.opens_shelf j)
    (Store.collectionNames_shelf i _) (Store.collectionNames_shelf j _) (fun _ => settled) (fun _ => rfl)
    (fun c w _ _ _ => reconcile_shelf (reads_shelves (readsAs_shelf i c) (readsAs_shelf j c) w)
      fun _ => mem_listed_shelf) h
  exact ⟨r, w', h, hall⟩

/-- A transfer in which calls fail, and which therefore stops, has stopped for the first of them. The
source is as it was, and each document of the target is as it was, or as it is after the same transfer
without failures. So a document is lost only if the source does not have it. -/
theorem import_interrupted (hne : i ≠ j) (fails : Nat → Option Failure) (w : World) {stop : Halt}
    {t : Timed} (h : run (⟨fails, i, Name.defaultCollection⟩ : Unreliable)
      (⟨fails, j, Name.defaultCollection⟩ : Unreliable) ⟨w, 0⟩ = .error stop t) :
    (∃ n f, (∀ m < n, fails m = none) ∧ fails n = some f ∧ stop = .failure f ∧ t.next = n + 1) ∧
      OnlyOn j w t.world ∧
      ∃ r w', run (Store.shelf i Name.defaultCollection) (Store.shelf j Name.defaultCollection) w =
          .ok r w' ∧
        (∀ c name, (t.world.documents j c).get? name = (w.documents j c).get? name ∨
          (t.world.documents j c).get? name = (w'.documents j c).get? name) ∧
        ∀ c name, (w.documents j c).get? name ≠ none → (t.world.documents j c).get? name = none →
          (w.documents i c).get? name = none := by
  have hends := run_endures hne fails w ⟨w, 0⟩ rfl
  rw [h] at hends
  cases hends with
  | @error f n u hpassed hfail hpartly =>
    obtain ⟨r, w', hrun, hall⟩ := exists_run_shelf i j w
    refine ⟨⟨n, f, fun m hm => hpassed.2 m (Nat.zero_le m) hm, hfail, rfl, rfl⟩, hpartly.only, r, w',
      hrun, ?_, ?_⟩
    · intro c name
      rw [hall]
      exact hpartly.documents c name
    · intro c name hbefore hafter
      rcases hpartly.documents c name with hold | hnew
      · exact absurd (hold.symm.trans hafter) hbefore
      · cases hd : (w.documents i c).get? name with
        | none => rfl
        | some d =>
          obtain ⟨e, he, -⟩ := settled_same ((w.documents j c).get? name) d
          rw [hd, he] at hnew
          exact absurd (hnew.symm.trans hafter) nofun

/-- Of the calls, only the sixth one fails. -/
def failsSixth (n : Nat) : Option Failure := if n = 5 then some (.readOnly "delete") else none

/-- A transfer that writes `system.site` and then fails to delete `user.guest`. -/
theorem import_interrupted_site :
    0 ≠ 1 ∧ ∃ t, run (⟨failsSixth, 0, Name.defaultCollection⟩ : Unreliable)
        (⟨failsSixth, 1, Name.defaultCollection⟩ : Unreliable) ⟨siteShelves, 0⟩ =
          .error (.failure (.readOnly "delete")) t ∧
      (∃ n f, (∀ m < n, failsSixth m = none) ∧ failsSixth n = some f ∧ t.next = n + 1) ∧
      t.world.documents 0 "" = siteShelves.documents 0 "" ∧
      (t.world.documents 1 "").contains "user.guest" = true ∧
      ∃ r w', run (Store.shelf 0 Name.defaultCollection) (Store.shelf 1 Name.defaultCollection)
          siteShelves = .ok r w' ∧
        ((t.world.documents 1 "").get? "system.site" = (siteShelves.documents 1 "").get? "system.site" ∨
          (t.world.documents 1 "").get? "system.site" = (w'.documents 1 "").get? "system.site") := by
  have hne : 0 ≠ 1 := by decide
  have hstops : (match run (⟨failsSixth, 0, Name.defaultCollection⟩ : Unreliable)
      (⟨failsSixth, 1, Name.defaultCollection⟩ : Unreliable) ⟨siteShelves, 0⟩ with
      | .ok .. => false
      | .error stop t => decide (stop = .failure (.readOnly "delete")) &&
        (t.world.documents 1 "").contains "user.guest") = true := by
    decide +kernel
  cases h : run (⟨failsSixth, 0, Name.defaultCollection⟩ : Unreliable)
      (⟨failsSixth, 1, Name.defaultCollection⟩ : Unreliable) ⟨siteShelves, 0⟩ with
  | ok r t =>
    rw [h] at hstops
    cases hstops
  | error stop t =>
    rw [h] at hstops
    obtain ⟨hstop, hguest⟩ := Bool.and_eq_true_iff.mp hstops
    have hstop := of_decide_eq_true hstop
    obtain ⟨⟨n, f, hbefore, hfail, -, hnext⟩, honly, r, w', hrun, hdocuments, -⟩ :=
      import_interrupted hne failsSixth siteShelves h
    rw [hstop] at h ⊢
    exact ⟨hne, t, rfl, ⟨n, f, hbefore, hfail, hnext⟩, honly.documents_of_ne hne "", hguest, r, w', hrun,
      hdocuments "" "system.site"⟩

end Transfer

end LayeredConfig
