import LayeredConfig.Proofs.Dict
import LayeredConfig.Storage
/-!
# Runs that answer

How a run of several steps that answers is taken apart into the runs of its steps, and put together
from them. A step that only reads leaves the state as it is.
-/

namespace LayeredConfig

namespace Run

variable {σ α β γ : Type} {x : Run σ α} {f : α → Run σ β} {s s' t : σ} {a : α} {b : β}

@[simp] theorem pure_apply (a : α) (s : σ) : (pure a : Run σ α) s = .ok a s := rfl

@[simp] theorem crash_apply (s : σ) : (crash : Run σ α) s = .error .crash s := rfl

theorem bind_ok (h : x s = .ok a t) (f : α → Run σ β) : (x >>= f) s = f a t := by
  show EStateM.bind x f s = f a t
  rw [EStateM.bind, h]

theorem bind_error {stop : Halt} (h : x s = .error stop t) (f : α → Run σ β) :
    (x >>= f) s = .error stop t := by
  show EStateM.bind x f s = _
  rw [EStateM.bind, h]

theorem bind_eq_ok : (x >>= f) s = .ok b s' ↔ ∃ a t, x s = .ok a t ∧ f a t = .ok b s' := by
  cases h : x s with
  | ok a t =>
    rw [bind_ok h]
    exact ⟨fun hf => ⟨a, t, rfl, hf⟩, by rintro ⟨_, _, ⟨⟩, hf⟩; exact hf⟩
  | error stop t =>
    rw [bind_error h]
    exact ⟨nofun, by rintro ⟨_, _, ⟨⟩, _⟩⟩

/-- A run answers once. -/
theorem ok_unique {a' : α} {t' : σ} (h : x s = .ok a t) (h' : x s = .ok a' t') : a = a' ∧ t = t' :=
  EStateM.Result.ok.inj (h.symm.trans h')

/-- Counting what a step answers leaves what the step leaves. -/
theorem of_bind_ite_eq_ok {x : Run σ Bool} {p q : α}
    (h : (x >>= fun b => if b then pure p else pure q) s = .ok a t) : ∃ b, x s = .ok b t := by
  obtain ⟨b, u, hx, hu⟩ := bind_eq_ok.mp h
  have hut : u = t := by cases b <;> exact (EStateM.Result.ok.inj hu).2
  exact ⟨b, hut ▸ hx⟩

theorem map_ok {g : α → β} (h : x s = .ok a t) : (g <$> x) s = .ok (g a) t := by
  rw [map_eq_pure_bind, bind_ok h]
  rfl

theorem map_error {g : α → β} {stop : Halt} (h : x s = .error stop t) :
    (g <$> x) s = .error stop t := by
  rw [map_eq_pure_bind, bind_error h]

/-- Goes on with a value, or stops where there is none. -/
def ofOption : Option α → Run σ α
  | some a => pure a
  | none => crash

@[simp] theorem ofOption_some (a : α) (s : σ) : (ofOption (some a) : Run σ α) s = .ok a s := rfl

theorem ofOption_eq_ok {o : Option α} : ofOption o s = .ok a s' ↔ o = some a ∧ s' = s := by
  cases o <;> simp [ofOption, eq_comm]

/-- What is answered from a result. -/
theorem ofExcept_bind_eq_ok {o : Except Failure α} {g : α → β} :
    (ofExcept o >>= fun a => pure (g a) : Run σ β) s = .ok b s' ↔
      s' = s ∧ ∃ a, o = .ok a ∧ g a = b := by
  cases o with
  | ok a =>
    constructor
    · intro h
      cases h
      exact ⟨rfl, a, rfl, rfl⟩
    · rintro ⟨rfl, a', ha, rfl⟩
      cases ha
      rfl
  | error f =>
    constructor
    · intro h
      cases h
    · rintro ⟨-, a, ha, -⟩
      cases ha

/-- Whether a run answered, and something holds of the answer and of the state that it left. -/
def answers (p : α → σ → Bool) : EStateM.Result Halt σ α → Bool
  | .ok a s => p a s
  | .error .. => false

theorem exists_of_answers {p : α → σ → Bool} {out : EStateM.Result Halt σ α}
    (h : answers p out = true) : ∃ a s, out = .ok a s ∧ p a s = true := by
  cases out with
  | ok a s => exact ⟨a, s, rfl, h⟩
  | error => cases h

/-! ## Loops -/

/-- A loop over one item is its step. -/
theorem foldlM_singleton (g : β → α → Run σ β) (a : α) (b : β) : [a].foldlM g b = g b a := by
  simp

theorem foldlM_cons_eq_ok {g : β → α → Run σ β} {as : List α} {b b' : β} :
    (a :: as).foldlM g b s = .ok b' s' ↔
      ∃ c t, g b a s = .ok c t ∧ as.foldlM g c t = .ok b' s' := by
  rw [List.foldlM_cons, bind_eq_ok]

/-- Each step of a loop that answers has answered, in a state of which what each step keeps holds. -/
theorem foldlM_steps {g : β → α → Run σ β} {I : σ → Prop} {as : List α} {b b' : β}
    (step : ∀ a ∈ as, ∀ b s c t, I s → g b a s = .ok c t → I t) (hs : I s)
    (h : as.foldlM g b s = .ok b' s') : ∀ a ∈ as, ∃ b t c u, I t ∧ g b a t = .ok c u := by
  induction as generalizing b s with
  | nil => simp
  | cons a as ih =>
    obtain ⟨c, t, hc, ht⟩ := foldlM_cons_eq_ok.mp h
    intro x hx
    rcases List.mem_cons.mp hx with rfl | hx
    · exact ⟨b, s, c, t, hs, hc⟩
    · exact ih (fun y hy => step y (List.mem_cons_of_mem a hy)) (step a (by simp) b s c t hs hc) ht x hx

/-- A loop whose steps only read is related to a loop with related steps. -/
theorem foldlM_rel {g : β → α → Run σ β} {k : γ → α → γ} {R : β → γ → Prop} {as : List α} {c : γ}
    (h : ∀ a ∈ as, ∀ b c, R b c → ∃ b', g b a s = .ok b' s ∧ R b' (k c a)) (hbc : R b c) :
    ∃ b', as.foldlM g b s = .ok b' s ∧ R b' (as.foldl k c) := by
  induction as generalizing b c with
  | nil => exact ⟨b, rfl, hbc⟩
  | cons a as ih =>
    obtain ⟨b', hb', hrel⟩ := h a (by simp) b c hbc
    rw [List.foldlM_cons, bind_ok hb', List.foldl_cons]
    exact ih (fun x hx => h x (List.mem_cons_of_mem a hx)) hrel

/-- A loop in which each step may turn a yes into a no, and only reads, says yes if all steps do. -/
theorem foldlM_and {g : Bool → α → Run σ Bool} {p : α → Bool} (h : ∀ b a, g b a s = .ok (b && p a) s)
    (as : List α) (b : Bool) : as.foldlM g b s = .ok (b && as.all p) s := by
  induction as generalizing b with
  | nil =>
    rw [List.all_nil, Bool.and_true]
    rfl
  | cons a as ih => rw [List.foldlM_cons, bind_ok (h b a), ih, List.all_cons, Bool.and_assoc]

/-- A loop whose steps only read gives what the values of the steps give. -/
theorem mapM_ofOption {as : List α} {f : α → Run σ β} {g : α → Option β}
    (h : ∀ a ∈ as, f a s = ofOption (g a) s) : as.mapM f s = ofOption (as.mapM g) s := by
  induction as with
  | nil => rfl
  | cons a as ih =>
    have ih := ih fun x hx => h x (List.mem_cons_of_mem a hx)
    have ha := h a (by simp)
    rw [List.mapM_cons, List.mapM_cons]
    cases hg : g a with
    | none =>
      rw [hg] at ha
      exact bind_error ha _
    | some b =>
      rw [hg] at ha
      rw [bind_ok ha]
      cases hgs : as.mapM g with
      | none =>
        rw [hgs] at ih
        exact bind_error ih _
      | some bs =>
        rw [hgs] at ih
        rw [bind_ok ih]
        rfl

/-- A loop whose steps give back what they are given gives all of it back. -/
theorem mapM_self {as : List α} {f : α → Run σ α} (h : ∀ a ∈ as, f a s = .ok a s) :
    as.mapM f s = .ok as s := by
  have hall : as.mapM (pure : α → Option α) = pure as := by
    have hpure := List.mapM_pure (m := Option) (l := as) (f := id)
    rwa [List.map_id] at hpure
  exact (mapM_ofOption (g := pure) h).trans (congrArg (ofOption · s) hall)

/-! ## Runs that always answer -/

/-- A run answers in every state. -/
def Answers (x : Run σ α) : Prop := ∀ s, ∃ a t, x s = .ok a t

namespace Answers

theorem pure (a : α) : Answers (Pure.pure a : Run σ α) := fun s => ⟨a, s, rfl⟩

theorem bind (hx : Answers x) (hf : ∀ a, Answers (f a)) : Answers (x >>= f) := by
  intro s
  obtain ⟨a, t, ha⟩ := hx s
  obtain ⟨b, u, hb⟩ := hf a t
  exact ⟨b, u, (bind_ok ha f).trans hb⟩

theorem ite {p : Prop} [Decidable p] {y : Run σ α} (hx : Answers x) (hy : Answers y) :
    Answers (if p then x else y) := by
  split
  · exact hx
  · exact hy

theorem foldlM {g : β → α → Run σ β} (h : ∀ b a, Answers (g b a)) (as : List α) (b : β) :
    Answers (as.foldlM g b) := by
  induction as generalizing b with
  | nil => exact .pure b
  | cons a as ih =>
    rw [List.foldlM_cons]
    exact (h b a).bind ih

end Answers

/-! ## Runs that only read -/

/-- A run leaves every state as it is, whether it answers or stops. -/
def Steady (x : Run σ α) : Prop := ∀ s, (∃ a, x s = .ok a s) ∨ ∃ stop, x s = .error stop s

namespace Steady

theorem pure (a : α) : Steady (Pure.pure a : Run σ α) := fun _ => .inl ⟨a, rfl⟩

theorem fail (cause : Failure) : Steady (Run.fail cause : Run σ α) := fun _ => .inr ⟨_, rfl⟩

theorem crash : Steady (Run.crash : Run σ α) := fun _ => .inr ⟨_, rfl⟩

theorem get : Steady (MonadState.get : Run σ σ) := fun s => .inl ⟨s, rfl⟩

theorem ofExcept (o : Except Failure α) : Steady (Run.ofExcept o : Run σ α) := by
  cases o with
  | ok a => exact .pure a
  | error cause => exact .fail cause

theorem bind (hx : Steady x) (hf : ∀ a, Steady (f a)) : Steady (x >>= f) := by
  intro s
  rcases hx s with ⟨a, ha⟩ | ⟨stop, hstop⟩
  · rw [bind_ok ha]
    exact hf a s
  · exact .inr ⟨stop, bind_error hstop f⟩

theorem map {g : α → β} (hx : Steady x) : Steady (g <$> x) := by
  rw [map_eq_pure_bind]
  exact hx.bind fun a => .pure (g a)

theorem foldlM {g : β → α → Run σ β} {as : List α} (h : ∀ a ∈ as, ∀ b, Steady (g b a)) (b : β) :
    Steady (as.foldlM g b) := by
  induction as generalizing b with
  | nil => exact .pure b
  | cons a as ih =>
    rw [List.foldlM_cons]
    exact (h a (by simp) b).bind fun c => ih (fun x hx => h x (by simp [hx])) c

theorem mapM {g : α → Run σ β} (h : ∀ a, Steady (g a)) (as : List α) : Steady (as.mapM g) := by
  induction as with
  | nil => exact .pure []
  | cons a as ih =>
    rw [List.mapM_cons]
    exact (h a).bind fun b => ih.bind fun bs => .pure (b :: bs)

theorem eq_of_ok (hx : Steady x) (h : x s = .ok a t) : t = s := by
  rcases hx s with ⟨b, hb⟩ | ⟨stop, hstop⟩
  · exact (ok_unique h hb).2
  · rw [hstop] at h
    cases h

/-- What only passes on the answers of a run changes nothing. -/
theorem bind_eq_self {g : α → Run σ α} (hx : Steady x) (hg : ∀ a, x s = .ok a s → g a s = .ok a s) :
    (x >>= g) s = x s := by
  rcases hx s with ⟨a, ha⟩ | ⟨stop, hstop⟩
  · rw [bind_ok ha, hg a ha, ha]
  · rw [bind_error hstop, hstop]

end Steady

end Run

namespace Storage

variable {σ : Type} {s s' : σ}

/-- The operations that a transfer makes use of always answer. -/
structure Answers (x : Storage σ) : Prop where
  list : ∀ start, Run.Answers (x.list start)
  readMany : ∀ names, Run.Answers (x.readMany names)
  write : ∀ name d, Run.Answers (x.write name d)
  delete : ∀ name, Run.Answers (x.delete name)
  collectionNames : Run.Answers x.collectionNames

variable {read : String → Run σ (Option Document)} {names : List String} {ds : Dict Document}

/-- Reading documents one by one gives what reading them from a map gives, where each is related to that
of the map. -/
theorem readEach_rel {R : Document → Document → Prop}
    (h : ∀ n ∈ names, ∃ o, read n s = .ok o s ∧ Option.Rel R o (ds.get? n)) :
    ∃ es, readEach read names s = .ok es s ∧
      ∀ n, Option.Rel R (es.get? n) ((ds.restrict names).get? n) := by
  rw [← Dict.foldl_collect]
  refine Run.foldlM_rel
    (R := fun (es found : Dict Document) => ∀ n, Option.Rel R (es.get? n) (found.get? n)) ?_
    fun _ => .none
  intro n hn found found' hfound
  obtain ⟨o, ho, hrel⟩ := h n hn
  have hstep : ∀ m d d', R d d' →
      Option.Rel R ((found.insert n d).get? m) ((found'.insert n d').get? m) := by
    intro m d d' hd
    rw [Dict.get?_insert, Dict.get?_insert]
    split
    · exact .some hd
    · exact hfound m
  rw [Run.bind_ok ho, Dict.collect]
  generalize ds.get? n = o' at hrel
  cases hrel with
  | none => exact ⟨found, rfl, hfound⟩
  | some hd => exact ⟨_, rfl, fun m => hstep m _ _ hd⟩

/-- Reading documents one by one gives those of the names that have one. -/
theorem readEach_eq (h : ∀ name ∈ names, read name s = .ok (ds.get? name) s) :
    readEach read names s = .ok (ds.restrict names) s := by
  obtain ⟨es, hes, hrel⟩ := readEach_rel fun name hname => ⟨_, h name hname, rel_eq_iff.mpr rfl⟩
  have hsame : es = ds.restrict names := Dict.ext fun name => rel_eq_iff.mp (hrel name)
  rw [hes, hsame]

/-- Reading one more document only reads. -/
theorem steady_readOne (hread : ∀ name, (read name).Steady) (found : Dict Document) (name : String) :
    Run.Steady (do
      match ← read name with
      | some d => pure (found.insert name d)
      | none => pure found) := by
  apply (hread name).bind
  intro o
  cases o with
  | none => exact .pure found
  | some d => exact .pure (found.insert name d)

theorem steady_readEach (hread : ∀ name, (read name).Steady) (names : List String) :
    (readEach read names).Steady :=
  .foldlM (fun name _ found => steady_readOne hread found name) ∅

/-- The documents that are read under some names, as a map. -/
theorem exists_answers (h : ∀ name ∈ names, ∃ o, read name s = .ok o s) :
    ∃ ds : Dict Document, ∀ name ∈ names, read name s = .ok (ds.get? name) s := by
  induction names with
  | nil => exact ⟨∅, by simp⟩
  | cons name names ih =>
    obtain ⟨ds, hds⟩ := ih fun other hother => h other (by simp [hother])
    obtain ⟨o, ho⟩ := h name (by simp)
    refine ⟨o.elim (ds.erase name) (ds.insert name), fun other hother => ?_⟩
    have hget : (o.elim (ds.erase name) (ds.insert name)).get? other =
        if name = other then o else ds.get? other := by
      cases o with
      | none => exact Dict.get?_erase ds name other
      | some d => exact Dict.get?_insert ds name other d
    rw [hget]
    split
    · next heq => exact heq ▸ ho
    · next hne => exact hds other (List.mem_of_ne_of_mem (Ne.symm hne) hother)

/-- Where documents could be read one by one, each of them was read as it is among them. -/
theorem readEach_eq_ok (hread : ∀ name, (read name).Steady) (h : readEach read names s = .ok ds s') :
    ds.restrict names = ds ∧ ∀ name ∈ names, read name s = .ok (ds.get? name) s := by
  have hsteps := Run.foldlM_steps (I := (· = s)) (fun name _ found t c u ht hrun =>
    ((steady_readOne hread found name).eq_of_ok hrun).trans ht) rfl h
  have heach : ∀ name ∈ names, ∃ o, read name s = .ok o s := by
    intro name hname
    obtain ⟨found, t, c, u, rfl, hrun⟩ := hsteps name hname
    obtain ⟨o, v, ho, -⟩ := Run.bind_eq_ok.mp hrun
    exact ⟨o, (hread name).eq_of_ok ho ▸ ho⟩
  obtain ⟨es, hes⟩ := exists_answers heach
  obtain ⟨rfl, -⟩ := Run.ok_unique h (readEach_eq hes)
  refine ⟨Dict.restrict_restrict names es, fun name hname => ?_⟩
  rw [Dict.get?_restrict, if_pos hname]
  exact hes name hname

end Storage

end LayeredConfig
