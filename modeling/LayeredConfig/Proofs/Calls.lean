import LayeredConfig.Pipeline
import LayeredConfig.Proofs.Run
/-!
# What a pipeline asks of its storage

A pipeline is run over a storage that notes each change it is asked for (`Storage.watched`), before
the storage makes it, fails or refuses. `Writes`, `Guards` and `DeletesAll` say in which ways a change
goes through a chain of filters, what is asked for then, and how it ends. The filters are any, and each
of their hooks may stop at any point. `changes_iff` says that these are the ways that there are.
-/

namespace LayeredConfig

/-- A change that a storage is asked for. -/
inductive Change
  | write (name : String) (d : Document)
  | delete (name : String)
  | rename (old new : String)
  | deleteAll (start : String)

/-- A state, and the changes that a storage was asked for, the first one first. -/
structure Watched (σ : Type) where
  state : σ
  asked : List Change

namespace Watched

variable {σ α : Type}

/-- The end of a run, with the changes that were asked for until then. -/
def result (asked : List Change) : EStateM.Result Halt σ α → EStateM.Result Halt (Watched σ) α
  | .ok a t => .ok a ⟨t, asked⟩
  | .error stop t => .error stop ⟨t, asked⟩

theorem result_inj {asked asked' : List Change} {r r' : EStateM.Result Halt σ α}
    (h : result asked r = result asked' r') : asked = asked' ∧ r = r' := by
  cases r <;> cases r' <;> simp_all [result]

end Watched

namespace Run

variable {σ α β : Type} {x : Run σ α} {s t : σ} {asked : List Change}

/-- A run that asks for no change. -/
def aside (x : Run σ α) : Run (Watched σ) α := Run.within (·.state) (fun t w => { w with state := t }) x

/-- A run that makes a change, which is noted first. -/
def asking (c : Change) (x : Run σ α) : Run (Watched σ) α :=
  fun w => x.aside { w with asked := w.asked ++ [c] }

theorem aside_apply (x : Run σ α) (s : σ) (asked : List Change) :
    x.aside ⟨s, asked⟩ = Watched.result asked (x s) := by
  rw [aside, Run.within]
  cases x s <;> rfl

theorem asking_apply (c : Change) (x : Run σ α) (s : σ) (asked : List Change) :
    x.asking c ⟨s, asked⟩ = Watched.result (asked ++ [c]) (x s) := aside_apply x s (asked ++ [c])

theorem aside_ok {a : α} (h : x s = .ok a t) : x.aside ⟨s, asked⟩ = .ok a ⟨t, asked⟩ := by
  rw [aside_apply, h, Watched.result]

theorem aside_error {stop : Halt} (h : x s = .error stop t) :
    x.aside ⟨s, asked⟩ = .error stop ⟨t, asked⟩ := by
  rw [aside_apply, h, Watched.result]

/-- A loop whose steps ask for no change asks for none. -/
theorem foldlM_aside {ε : Type} (f : β → ε → Run σ β) (es : List ε) (b : β) :
    es.foldlM (fun b e => (f b e).aside) b = (es.foldlM f b : Run σ β).aside := by
  induction es generalizing b with
  | nil => rfl
  | cons e es ih =>
    funext w
    obtain ⟨s, asked⟩ := w
    rw [List.foldlM_cons, List.foldlM_cons, aside_apply]
    cases h : f b e s with
    | ok c t => rw [bind_ok (aside_ok h), bind_ok h, ih, aside_apply]
    | error stop t => rw [bind_error (aside_error h), bind_error h, Watched.result]

end Run

/-- A storage that notes each change it is asked for. -/
def Storage.watched {σ : Type} (s : Storage σ) : Storage (Watched σ) :=
  { s.lift Run.aside with
    write := fun name d => (s.write name d).asking (.write name d)
    delete := fun name => (s.delete name).asking (.delete name)
    rename := fun old new => (s.rename old new).asking (.rename old new)
    deleteAll := fun start => (s.deleteAll start).asking (.deleteAll start) }

/-- The hooks of a filter beside what is noted. -/
def Hooks.watched {σ : Type} (h : Hooks σ) : Hooks (Watched σ) where
  contains name b := (h.contains name b).aside
  read name d := (h.read name d).aside
  readMany names ds := (h.readMany names ds).aside
  write name d := (h.write name d).aside
  emptyDeletes name := (h.emptyDeletes name).aside
  delete name b := (h.delete name b).aside
  rename old new b := (h.rename old new b).aside
  list start names := (h.list start names).aside
  deleteAll start b := (h.deleteAll start b).aside
  collectionNames names := (h.collectionNames names).aside
  collectionName := h.collectionName

namespace Pipeline

variable {σ : Type} (base : Storage σ) (chain : List (Hooks σ))

/-- A pipeline over a storage that notes what it is asked for. -/
def watched : Storage (Watched σ) := Pipeline.storage base.watched (chain.map Hooks.watched)

/-! ## The ways of a change -/

/-- What the chain makes of a document that is to be written. -/
def payload (name : String) (d : Document) : Run σ (Option Document) :=
  chain.foldlM (fun p h => h.write name p) (some d)

/-- Whether the chain permits that a document is renamed. -/
def permitsRename (old new : String) : Run σ Bool :=
  chain.foldlM (fun b h => h.rename old new b) true

/-- Whether the chain permits that documents are deleted all at once. -/
def permitsDeleteAll (start : String) : Run σ Bool :=
  chain.foldlM (fun b h => h.deleteAll start b) true

/-- No document, or one without entries. -/
def Blank (o : Option Document) : Prop := ∀ d, o = some d → d.isEmpty = true

/-- Filters that are asked in turn, none of which has a blank document deleted. -/
inductive Declined (name : String) : List (Hooks σ) → σ → σ → Prop
  | nil {s : σ} : Declined name [] s s
  | cons {h : Hooks σ} {rest : List (Hooks σ)} {s t u : σ} : h.emptyDeletes name s = .ok false t →
      Declined name rest t u → Declined name (h :: rest) s u

/-- How a document is written: which changes are asked for, and how it ends. -/
inductive Writes (name : String) (d : Document) (s : σ) :
    List Change → EStateM.Result Halt σ Bool → Prop
  /-- A hook stops. -/
  | stopped {stop : Halt} {t : σ} : payload chain name d s = .error stop t →
      Writes name d s [] (.error stop t)
  | stored {p : Document} {t : σ} : payload chain name d s = .ok (some p) t → p.isEmpty = false →
      Writes name d s [.write name p] (base.write name p t)
  /-- Whether the document is there cannot be told. -/
  | unseen {o : Option Document} {stop : Halt} {t u : σ} : payload chain name d s = .ok o t →
      Blank o → base.contains name t = .error stop u → Writes name d s [] (.error stop u)
  | missing {o : Option Document} {t u : σ} : payload chain name d s = .ok o t → Blank o →
      base.contains name t = .ok false u → Writes name d s [] (.ok true u)
  /-- The document is there, and no filter has it deleted. -/
  | left {o : Option Document} {t u v : σ} : payload chain name d s = .ok o t → Blank o →
      base.contains name t = .ok true u → Declined name chain u v → Writes name d s [] (.ok true v)
  /-- The document is there, and a filter stops before one has it deleted. -/
  | undecided {o : Option Document} {stop : Halt} {t u v w : σ} {before after : List (Hooks σ)}
      {h : Hooks σ} : payload chain name d s = .ok o t → Blank o →
      base.contains name t = .ok true u → chain = before ++ h :: after →
      Declined name before u v → h.emptyDeletes name v = .error stop w →
      Writes name d s [] (.error stop w)
  /-- The document is there, and a filter has it deleted. The filters after it are not asked. -/
  | deleted {o : Option Document} {t u v w : σ} {before after : List (Hooks σ)} {h : Hooks σ} :
      payload chain name d s = .ok o t → Blank o → base.contains name t = .ok true u →
      chain = before ++ h :: after → Declined name before u v → h.emptyDeletes name v = .ok true w →
      Writes name d s [.delete name] (base.delete name w)

/-- How a change is made that needs permission. -/
inductive Guards (permission : Run σ Bool) (change : Change) (make : Run σ Bool) (s : σ) :
    List Change → EStateM.Result Halt σ Bool → Prop
  /-- A hook stops. -/
  | stopped {stop : Halt} {t : σ} : permission s = .error stop t →
      Guards permission change make s [] (.error stop t)
  | refused {t : σ} : permission s = .ok false t → Guards permission change make s [] (.ok false t)
  | made {t : σ} : permission s = .ok true t → Guards permission change make s [change] (make t)

/-- How documents are deleted one after the other. The permission for each is asked for when its turn
has come. -/
inductive DeletesEach : List String → σ → List Change → EStateM.Result Halt σ Unit → Prop
  | done {s : σ} : DeletesEach [] s [] (.ok () s)
  | spared {name : String} {rest : List String} {s t : σ} {asked : List Change}
      {r : EStateM.Result Halt σ Unit} : permitsDelete chain name s = .ok false t →
      DeletesEach rest t asked r → DeletesEach (name :: rest) s asked r
  | deleted {name : String} {rest : List String} {s t u : σ} {b : Bool} {asked : List Change}
      {r : EStateM.Result Halt σ Unit} : permitsDelete chain name s = .ok true t →
      base.delete name t = .ok b u → DeletesEach rest u asked r →
      DeletesEach (name :: rest) s (.delete name :: asked) r
  /-- A hook stops. The names after this one do not get their turn. -/
  | stopped {name : String} {rest : List String} {s t : σ} {stop : Halt} :
      permitsDelete chain name s = .error stop t → DeletesEach (name :: rest) s [] (.error stop t)
  /-- The storage fails. The names after this one do not get their turn. -/
  | failed {name : String} {rest : List String} {s t u : σ} {stop : Halt} :
      permitsDelete chain name s = .ok true t → base.delete name t = .error stop u →
      DeletesEach (name :: rest) s [.delete name] (.error stop u)

/-- How the documents whose names start with a text are deleted. -/
inductive DeletesAll (start : String) (s : σ) :
    List Change → EStateM.Result Halt σ Bool → Prop
  /-- A hook stops. -/
  | stopped {stop : Halt} {t : σ} : permitsDeleteAll chain start s = .error stop t →
      DeletesAll start s [] (.error stop t)
  | atOnce {t : σ} : permitsDeleteAll chain start s = .ok true t →
      DeletesAll start s [.deleteAll start] (base.deleteAll start t)
  | unlisted {stop : Halt} {t u : σ} : permitsDeleteAll chain start s = .ok false t →
      base.list start t = .error stop u → DeletesAll start s [] (.error stop u)
  | oneByOne {names : List String} {t u v : σ} {asked : List Change} :
      permitsDeleteAll chain start s = .ok false t → base.list start t = .ok names u →
      DeletesEach base chain names u asked (.ok () v) → DeletesAll start s asked (.ok true v)
  | cutShort {names : List String} {stop : Halt} {t u v : σ} {asked : List Change} :
      permitsDeleteAll chain start s = .ok false t → base.list start t = .ok names u →
      DeletesEach base chain names u asked (.error stop v) → DeletesAll start s asked (.error stop v)

variable {base chain} {name : String} {d : Document} {s t u : σ} {asked : List Change}
  {r : EStateM.Result Halt σ Bool}

/-! ## Filters in turn -/

theorem aside_payload (name : String) (d : Document) :
    (chain.map Hooks.watched).foldlM (fun p h => h.write name p) (some d) =
      (payload chain name d).aside :=
  List.foldlM_map.trans (Run.foldlM_aside (fun p (h : Hooks σ) => h.write name p) chain (some d))

theorem aside_permitsDelete (name : String) :
    permitsDelete (chain.map Hooks.watched) name = (permitsDelete chain name).aside :=
  List.foldlM_map.trans (Run.foldlM_aside (fun b (h : Hooks σ) => h.delete name b) chain true)

theorem aside_permitsRename (old new : String) :
    (chain.map Hooks.watched).foldlM (fun b h => h.rename old new b) true =
      (permitsRename chain old new).aside :=
  List.foldlM_map.trans (Run.foldlM_aside (fun b (h : Hooks σ) => h.rename old new b) chain true)

theorem aside_permitsDeleteAll (start : String) :
    (chain.map Hooks.watched).foldlM (fun b h => h.deleteAll start b) true =
      (permitsDeleteAll chain start).aside :=
  List.foldlM_map.trans (Run.foldlM_aside (fun b (h : Hooks σ) => h.deleteAll start b) chain true)

/-- Asking the filters in turn goes on until one claims the document or stops. -/
theorem anyM_of_declined {before : List (Hooks σ)} (h : Declined name before s t)
    (rest : List (Hooks σ)) :
    (before ++ rest).anyM (·.emptyDeletes name) s = rest.anyM (·.emptyDeletes name) t := by
  induction h with
  | nil => rfl
  | cons hhook _ ih =>
    rw [List.cons_append, List.anyM, Run.bind_ok hhook]
    exact ih

/-- Either all filters decline, or there is a first one that does not. -/
theorem declined_or_first (name : String) (chain : List (Hooks σ)) (s : σ) :
    (∃ t, Declined name chain s t) ∨ ∃ before h after t, chain = before ++ h :: after ∧
      Declined name before s t ∧ ((∃ u, h.emptyDeletes name t = .ok true u) ∨
        ∃ stop u, h.emptyDeletes name t = .error stop u) := by
  induction chain generalizing s with
  | nil => exact .inl ⟨s, .nil⟩
  | cons h rest ih =>
    cases hhook : h.emptyDeletes name s with
    | error stop u => exact .inr ⟨[], h, rest, s, rfl, .nil, .inr ⟨stop, u, hhook⟩⟩
    | ok b u =>
      cases b with
      | true => exact .inr ⟨[], h, rest, s, rfl, .nil, .inl ⟨u, hhook⟩⟩
      | false =>
        rcases ih u with ⟨t, ht⟩ | ⟨before, g, after, t, rfl, ht, hg⟩
        · exact .inl ⟨t, .cons hhook ht⟩
        · exact .inr ⟨h :: before, g, after, t, rfl, .cons hhook ht, hg⟩

theorem declined_watched {before : List (Hooks σ)} (h : Declined name before s t)
    (asked : List Change) :
    Declined name (before.map Hooks.watched) (⟨s, asked⟩ : Watched σ) ⟨t, asked⟩ := by
  induction h with
  | nil => exact .nil
  | cons hhook _ ih => exact .cons (Run.aside_ok hhook) ih

/-! ## Writing -/

theorem blank_or (o : Option Document) : Blank o ∨ ∃ p, o = some p ∧ p.isEmpty = false := by
  cases o with
  | none => exact .inl nofun
  | some p =>
    cases hp : p.isEmpty with
    | true => exact .inl fun d hd => Option.some.inj hd ▸ hp
    | false => exact .inr ⟨p, rfl, hp⟩

theorem filter_of_blank {o : Option Document} (h : Blank o) : o.filter (! ·.isEmpty) = none := by
  cases o with
  | none => rfl
  | some d => exact Option.filter_some_neg (by simp [h d rfl])

/-- A document is written in one of the ways. -/
theorem exists_writes (base : Storage σ) (chain : List (Hooks σ)) (name : String) (d : Document)
    (s : σ) : ∃ asked r, Writes base chain name d s asked r := by
  cases hp : payload chain name d s with
  | error stop t => exact ⟨_, _, .stopped hp⟩
  | ok o t =>
    rcases blank_or o with ho | ⟨p, rfl, hd⟩
    · cases hc : base.contains name t with
      | error stop u => exact ⟨_, _, .unseen hp ho hc⟩
      | ok there u =>
        cases there with
        | false => exact ⟨_, _, .missing hp ho hc⟩
        | true =>
          rcases declined_or_first name chain u with
            ⟨v, hv⟩ | ⟨before, h, after, v, hchain, hv, ⟨w, hw⟩ | ⟨stop, w, hw⟩⟩
          · exact ⟨_, _, .left hp ho hc hv⟩
          · exact ⟨_, _, .deleted hp ho hc hchain hv hw⟩
          · exact ⟨_, _, .undecided hp ho hc hchain hv hw⟩
    · exact ⟨_, _, .stored hp hd⟩

/-- What writing does with a blank payload to a document that is there. -/
theorem write_there {o : Option Document} (hp : payload chain name d s = .ok o t) (ho : Blank o)
    (hc : base.contains name t = .ok true u) :
    Pipeline.write base chain name d s = (do
      if ← chain.anyM (·.emptyDeletes name) then base.delete name else pure true : Run σ Bool) u := by
  rw [Pipeline.write, ← payload, Run.bind_ok hp, filter_of_blank ho]
  exact Run.bind_ok hc _

theorem Writes.run (h : Writes base chain name d s asked r) : Pipeline.write base chain name d s = r := by
  cases h with
  | stopped hp => rw [Pipeline.write, ← payload, Run.bind_error hp]
  | stored hp hd =>
    rw [Pipeline.write, ← payload, Run.bind_ok hp, Option.filter_some_pos (by simp [hd])]
  | unseen hp ho hc =>
    rw [Pipeline.write, ← payload, Run.bind_ok hp, filter_of_blank ho]
    exact Run.bind_error hc _
  | missing hp ho hc =>
    rw [Pipeline.write, ← payload, Run.bind_ok hp, filter_of_blank ho]
    exact Run.bind_ok hc _
  | left hp ho hc hv =>
    have hany := anyM_of_declined hv []
    rw [List.append_nil] at hany
    rw [write_there hp ho hc, Run.bind_ok hany]
    rfl
  | @undecided _ _ _ _ _ _ _ after h hp ho hc hchain hv hstop =>
    subst hchain
    have hany := anyM_of_declined hv (h :: after)
    rw [List.anyM, Run.bind_error hstop] at hany
    rw [write_there hp ho hc, Run.bind_error hany]
  | @deleted _ _ _ _ _ _ after h hp ho hc hchain hv hclaim =>
    subst hchain
    have hany := anyM_of_declined hv (h :: after)
    rw [List.anyM, Run.bind_ok hclaim] at hany
    rw [write_there hp ho hc, Run.bind_ok hany]
    rfl

/-- A document is written over a storage that notes what it is asked for in the same way. -/
theorem Writes.watched (h : Writes base chain name d s asked r) (noted : List Change) :
    Writes base.watched (chain.map Hooks.watched) name d ⟨s, noted⟩ asked
      (Watched.result (noted ++ asked) r) := by
  have hpayload : ∀ {x}, payload chain name d s = x →
      payload (chain.map Hooks.watched) name d ⟨s, noted⟩ = Watched.result noted x := by
    rintro x rfl
    rw [payload, aside_payload, Run.aside_apply]
  cases h with
  | stopped hp =>
    rw [List.append_nil]
    exact .stopped (hpayload hp)
  | @stored p t hp hd =>
    have hwrite : base.watched.write name p ⟨t, noted⟩ = _ :=
      Run.asking_apply (.write name p) (base.write name p) t noted
    rw [← hwrite]
    exact .stored (hpayload hp) hd
  | unseen hp ho hc =>
    rw [List.append_nil]
    exact .unseen (hpayload hp) ho (Run.aside_error hc)
  | missing hp ho hc =>
    rw [List.append_nil]
    exact .missing (hpayload hp) ho (Run.aside_ok hc)
  | left hp ho hc hv =>
    rw [List.append_nil]
    exact .left (hpayload hp) ho (Run.aside_ok hc) (declined_watched hv noted)
  | undecided hp ho hc hchain hv hstop =>
    rw [List.append_nil]
    exact .undecided (hpayload hp) ho (Run.aside_ok hc) (by rw [hchain, List.map_append, List.map_cons])
      (declined_watched hv noted) (Run.aside_error hstop)
  | @deleted o t u v w before after h hp ho hc hchain hv hclaim =>
    have hdelete : base.watched.delete name ⟨w, noted⟩ = _ :=
      Run.asking_apply (.delete name) (base.delete name) w noted
    rw [← hdelete]
    exact .deleted (hpayload hp) ho (Run.aside_ok hc) (by rw [hchain, List.map_append, List.map_cons])
      (declined_watched hv noted) (Run.aside_ok hclaim)

theorem Writes.length_le_one (h : Writes base chain name d s asked r) : asked.length ≤ 1 := by
  cases h <;> simp

/-! ## Deleting and renaming -/

variable {permission make : Run σ Bool} {change : Change}

theorem exists_guards (permission : Run σ Bool) (change : Change) (make : Run σ Bool) (s : σ) :
    ∃ asked r, Guards permission change make s asked r := by
  cases hp : permission s with
  | error stop t => exact ⟨_, _, .stopped hp⟩
  | ok b t =>
    cases b with
    | false => exact ⟨_, _, .refused hp⟩
    | true => exact ⟨_, _, .made hp⟩

theorem Guards.run (h : Guards permission change make s asked r) :
    (do if ← permission then make else pure false : Run σ Bool) s = r := by
  cases h with
  | stopped hp => exact Run.bind_error hp _
  | refused hp => exact Run.bind_ok hp _
  | made hp => exact Run.bind_ok hp _

theorem Guards.watched (h : Guards permission change make s asked r) (noted : List Change) :
    Guards permission.aside change (make.asking change) ⟨s, noted⟩ asked
      (Watched.result (noted ++ asked) r) := by
  cases h with
  | stopped hp =>
    rw [List.append_nil]
    exact .stopped (Run.aside_error hp)
  | refused hp =>
    rw [List.append_nil]
    exact .refused (Run.aside_ok hp)
  | made hp =>
    rw [← Run.asking_apply]
    exact .made (Run.aside_ok hp)

/-- The change is asked for if and only if it is permitted. -/
theorem Guards.asked_iff (h : Guards permission change make s asked r) :
    asked = [change] ↔ ∃ t, permission s = .ok true t := by
  cases h with
  | stopped hp => simp [hp]
  | refused hp => simp [hp]
  | made hp => exact ⟨fun _ => ⟨_, hp⟩, fun _ => rfl⟩

/-! ## Deleting documents together -/

variable {names : List String} {start : String} {outcome : EStateM.Result Halt σ Unit}

theorem exists_deletesEach (base : Storage σ) (chain : List (Hooks σ)) (names : List String) (s : σ) :
    ∃ asked r, DeletesEach base chain names s asked r := by
  induction names generalizing s with
  | nil => exact ⟨_, _, .done⟩
  | cons name rest ih =>
    cases hp : permitsDelete chain name s with
    | error stop t => exact ⟨_, _, .stopped hp⟩
    | ok b t =>
      cases b with
      | false =>
        obtain ⟨asked, r, hrest⟩ := ih t
        exact ⟨_, _, .spared hp hrest⟩
      | true =>
        cases hd : base.delete name t with
        | error stop u => exact ⟨_, _, .failed hp hd⟩
        | ok b u =>
          obtain ⟨asked, r, hrest⟩ := ih u
          exact ⟨_, _, .deleted hp hd hrest⟩

theorem DeletesEach.run (h : DeletesEach base chain names s asked outcome) :
    (names.forM fun name => do discard (Pipeline.delete base chain name) : Run σ Unit) s = outcome := by
  induction h with
  | done => rfl
  | @spared name _ s t _ _ hp _ ih =>
    have hdelete : Pipeline.delete base chain name s = .ok false t := Run.bind_ok hp _
    exact (Run.bind_ok (Run.map_ok hdelete) _).trans ih
  | @deleted name _ s t u b _ _ hp hd _ ih =>
    have hdelete : Pipeline.delete base chain name s = .ok b u := (Run.bind_ok hp _).trans hd
    exact (Run.bind_ok (Run.map_ok hdelete) _).trans ih
  | @stopped name _ s t stop hp =>
    have hdelete : Pipeline.delete base chain name s = .error stop t := Run.bind_error hp _
    exact Run.bind_error (Run.map_error hdelete) _
  | @failed name _ s t u stop hp hd =>
    have hdelete : Pipeline.delete base chain name s = .error stop u := (Run.bind_ok hp _).trans hd
    exact Run.bind_error (Run.map_error hdelete) _

theorem DeletesEach.watched (h : DeletesEach base chain names s asked outcome) (noted : List Change) :
    DeletesEach base.watched (chain.map Hooks.watched) names ⟨s, noted⟩ asked
      (Watched.result (noted ++ asked) outcome) := by
  have hpermits : ∀ {name s x} {noted : List Change}, permitsDelete chain name s = x →
      permitsDelete (chain.map Hooks.watched) name ⟨s, noted⟩ = Watched.result noted x := by
    rintro name s x noted rfl
    rw [aside_permitsDelete, Run.aside_apply]
  have hdelete : ∀ {name t x} {noted : List Change}, base.delete name t = x →
      base.watched.delete name ⟨t, noted⟩ = Watched.result (noted ++ [.delete name]) x := by
    rintro name t x noted rfl
    exact Run.asking_apply (.delete name) (base.delete name) t noted
  induction h generalizing noted with
  | done =>
    rw [List.append_nil]
    exact .done
  | spared hp _ ih => exact .spared (hpermits hp) (ih noted)
  | deleted hp hd _ ih =>
    rw [List.append_cons]
    exact .deleted (hpermits hp) (hdelete hd) (ih _)
  | stopped hp =>
    rw [List.append_nil]
    exact .stopped (hpermits hp)
  | failed hp hd => exact .failed (hpermits hp) (hdelete hd)

/-- What is deleted is some of the names, in their order. -/
theorem DeletesEach.sublist (h : DeletesEach base chain names s asked outcome) :
    asked.Sublist (names.map .delete) := by
  induction h with
  | done => exact .slnil
  | spared _ _ ih => exact ih.cons _
  | deleted _ _ _ ih => exact ih.cons_cons _
  | stopped => exact List.nil_sublist _
  | failed => exact (List.nil_sublist _).cons_cons _

theorem exists_deletesAll (base : Storage σ) (chain : List (Hooks σ)) (start : String) (s : σ) :
    ∃ asked r, DeletesAll base chain start s asked r := by
  cases hp : permitsDeleteAll chain start s with
  | error stop t => exact ⟨_, _, .stopped hp⟩
  | ok b t =>
    cases b with
    | true => exact ⟨_, _, .atOnce hp⟩
    | false =>
      cases hl : base.list start t with
      | error stop u => exact ⟨_, _, .unlisted hp hl⟩
      | ok names u =>
        obtain ⟨asked, r, heach⟩ := exists_deletesEach base chain names u
        cases r with
        | ok x v => exact ⟨_, _, .oneByOne hp hl heach⟩
        | error stop v => exact ⟨_, _, .cutShort hp hl heach⟩

theorem DeletesAll.run (h : DeletesAll base chain start s asked r) :
    Pipeline.deleteAll base chain start s = r := by
  cases h with
  | stopped hp => exact Run.bind_error hp _
  | atOnce hp => exact Run.bind_ok hp _
  | unlisted hp hl => exact (Run.bind_ok hp _).trans (Run.bind_error hl _)
  | oneByOne hp hl heach =>
    exact (Run.bind_ok hp _).trans ((Run.bind_ok hl _).trans (Run.bind_ok heach.run _))
  | cutShort hp hl heach =>
    exact (Run.bind_ok hp _).trans ((Run.bind_ok hl _).trans (Run.bind_error heach.run _))

theorem DeletesAll.watched (h : DeletesAll base chain start s asked r) (noted : List Change) :
    DeletesAll base.watched (chain.map Hooks.watched) start ⟨s, noted⟩ asked
      (Watched.result (noted ++ asked) r) := by
  have hpermits : ∀ {x}, permitsDeleteAll chain start s = x →
      permitsDeleteAll (chain.map Hooks.watched) start ⟨s, noted⟩ = Watched.result noted x := by
    rintro x rfl
    rw [permitsDeleteAll, aside_permitsDeleteAll, Run.aside_apply]
  cases h with
  | stopped hp =>
    rw [List.append_nil]
    exact .stopped (hpermits hp)
  | @atOnce t hp =>
    have hdelete : base.watched.deleteAll start ⟨t, noted⟩ = _ :=
      Run.asking_apply (.deleteAll start) (base.deleteAll start) t noted
    rw [← hdelete]
    exact .atOnce (hpermits hp)
  | unlisted hp hl =>
    rw [List.append_nil]
    exact .unlisted (hpermits hp) (Run.aside_error hl)
  | oneByOne hp hl heach => exact .oneByOne (hpermits hp) (Run.aside_ok hl) (heach.watched noted)
  | cutShort hp hl heach => exact .cutShort (hpermits hp) (Run.aside_ok hl) (heach.watched noted)

/-- Documents deleted one by one are not deleted at once. -/
theorem DeletesEach.ne_deleteAll (h : DeletesEach base chain names s asked outcome) :
    asked ≠ [.deleteAll start] := by
  rintro rfl
  obtain ⟨name, -, hname⟩ := List.mem_map.mp (h.sublist.subset (List.mem_singleton_self _))
  cases hname

/-- Documents are deleted at once if and only if that is permitted. -/
theorem DeletesAll.asked_iff (h : DeletesAll base chain start s asked r) :
    asked = [.deleteAll start] ↔ ∃ t, permitsDeleteAll chain start s = .ok true t := by
  have refused : ∀ {t}, permitsDeleteAll chain start s = .ok false t → asked ≠ [.deleteAll start] →
      (asked = [.deleteAll start] ↔ ∃ t, permitsDeleteAll chain start s = .ok true t) := by
    intro t hp hne
    refine ⟨fun h => absurd h hne, ?_⟩
    rintro ⟨t', ht'⟩
    rw [hp] at ht'
    cases ht'
  cases h with
  | stopped hp => simp [hp]
  | atOnce hp => exact ⟨fun _ => ⟨_, hp⟩, fun _ => rfl⟩
  | unlisted hp _ => exact refused hp nofun
  | oneByOne hp _ heach => exact refused hp heach.ne_deleteAll
  | cutShort hp _ heach => exact refused hp heach.ne_deleteAll

/-! ## All ways -/

/-- Rules that tell how a run goes, one for each of its ways, tell all there is to tell. -/
theorem result_iff {x : Run (Watched σ) Bool} {y : Run σ Bool}
    {ways : List Change → EStateM.Result Halt σ Bool → Prop} (exists_way : ∃ asked r, ways asked r)
    (watched_run : ∀ {asked r}, ways asked r → x ⟨s, []⟩ = Watched.result asked r)
    (run : ∀ {asked r}, ways asked r → y s = r) :
    x ⟨s, []⟩ = Watched.result asked r ↔ ways asked r ∧ y s = r := by
  refine ⟨fun h => ?_, fun h => watched_run h.1⟩
  obtain ⟨asked', r', hway⟩ := exists_way
  obtain ⟨rfl, rfl⟩ := Watched.result_inj (h.symm.trans (watched_run hway))
  exact ⟨hway, run hway⟩

theorem write_iff : (watched base chain).write name d ⟨s, []⟩ = Watched.result asked r ↔
    Writes base chain name d s asked r ∧ (Pipeline.storage base chain).write name d s = r :=
  result_iff (exists_writes base chain name d s) (fun h => (h.watched []).run) Writes.run

theorem delete_iff : (watched base chain).delete name ⟨s, []⟩ = Watched.result asked r ↔
    Guards (permitsDelete chain name) (.delete name) (base.delete name) s asked r ∧
      (Pipeline.storage base chain).delete name s = r := by
  refine result_iff (exists_guards _ _ _ s) (fun h => ?_) Guards.run
  have hrun := (h.watched []).run
  rw [← aside_permitsDelete] at hrun
  exact hrun

theorem rename_iff {old new : String} :
    (watched base chain).rename old new ⟨s, []⟩ = Watched.result asked r ↔
      Guards (permitsRename chain old new) (.rename old new) (base.rename old new) s asked r ∧
        (Pipeline.storage base chain).rename old new s = r := by
  refine result_iff (exists_guards _ _ _ s) (fun h => ?_) Guards.run
  have hrun := (h.watched []).run
  rw [← aside_permitsRename] at hrun
  exact hrun

theorem deleteAll_iff : (watched base chain).deleteAll start ⟨s, []⟩ = Watched.result asked r ↔
    DeletesAll base chain start s asked r ∧ (Pipeline.storage base chain).deleteAll start s = r :=
  result_iff (exists_deletesAll base chain start s) (fun h => (h.watched []).run) DeletesAll.run

/-- What a pipeline asks of its storage, and how it ends, for each operation that changes something.
The storage and the filters are any, and so is where they stop. -/
theorem changes_iff (base : Storage σ) (chain : List (Hooks σ)) (s : σ) (asked : List Change)
    (r : EStateM.Result Halt σ Bool) :
    (∀ name d, (watched base chain).write name d ⟨s, []⟩ = Watched.result asked r ↔
      Writes base chain name d s asked r ∧ asked.length ≤ 1 ∧
        (Pipeline.storage base chain).write name d s = r) ∧
    (∀ name, (watched base chain).delete name ⟨s, []⟩ = Watched.result asked r ↔
      Guards (permitsDelete chain name) (.delete name) (base.delete name) s asked r ∧
        (asked = [.delete name] ↔ ∃ t, permitsDelete chain name s = .ok true t) ∧
        (Pipeline.storage base chain).delete name s = r) ∧
    (∀ old new, (watched base chain).rename old new ⟨s, []⟩ = Watched.result asked r ↔
      Guards (permitsRename chain old new) (.rename old new) (base.rename old new) s asked r ∧
        (asked = [.rename old new] ↔ ∃ t, permitsRename chain old new s = .ok true t) ∧
        (Pipeline.storage base chain).rename old new s = r) ∧
    (∀ start, (watched base chain).deleteAll start ⟨s, []⟩ = Watched.result asked r ↔
      DeletesAll base chain start s asked r ∧
        (asked = [.deleteAll start] ↔ ∃ t, permitsDeleteAll chain start s = .ok true t) ∧
        (Pipeline.storage base chain).deleteAll start s = r) := by
  refine ⟨fun name d => write_iff.trans ?_, fun name => delete_iff.trans ?_,
    fun old new => rename_iff.trans ?_, fun start => deleteAll_iff.trans ?_⟩
  · exact ⟨fun ⟨h, hr⟩ => ⟨h, h.length_le_one, hr⟩, fun ⟨h, _, hr⟩ => ⟨h, hr⟩⟩
  · exact ⟨fun ⟨h, hr⟩ => ⟨h, h.asked_iff, hr⟩, fun ⟨h, _, hr⟩ => ⟨h, hr⟩⟩
  · exact ⟨fun ⟨h, hr⟩ => ⟨h, h.asked_iff, hr⟩, fun ⟨h, _, hr⟩ => ⟨h, hr⟩⟩
  · exact ⟨fun ⟨h, hr⟩ => ⟨h, h.asked_iff, hr⟩, fun ⟨h, _, hr⟩ => ⟨h, hr⟩⟩

end Pipeline

end LayeredConfig
