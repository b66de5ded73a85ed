import LayeredConfig.Proofs.Run
/-!
# Sessions

A session opens views of one store and calls their operations in any order. A call that stops leaves
what it had done, and the session goes on. What each opening and each call keeps holds after every
session (`Session.run_inv`).
-/

namespace LayeredConfig

namespace Run

variable {σ α β : Type} {x : Run σ α} {s t : σ}

/-- The state that a run leaves, also where it stops. -/
def after (x : Run σ α) (s : σ) : σ :=
  match x s with
  | .ok _ t => t
  | .error _ t => t

theorem after_of_ok {a : α} (h : x s = .ok a t) : x.after s = t := by rw [after, h]

theorem after_of_error {stop : Halt} (h : x s = .error stop t) : x.after s = t := by rw [after, h]

@[simp] theorem after_map (f : α → β) : Run.after (f <$> x) s = x.after s := by
  cases h : x s with
  | ok a t => rw [after_of_ok h, after_of_ok (map_ok h)]
  | error stop t => rw [after_of_error h, after_of_error (map_error h)]

theorem after_ofOption (o : Option α) : Run.after (ofOption o) s = s := by
  cases o <;> rfl

end Run

/-- A call of an operation of a storage. -/
inductive Call
  | contains (name : String)
  | read (name : String)
  | readMany (names : List String)
  | write (name : String) (d : Document)
  | delete (name : String)
  | rename (old new : String)
  | list (start : String)
  | deleteAll (start : String)
  | collectionNames

/-- What a call answers. -/
inductive Answer
  | truth (b : Bool)
  | document (d : Option Document)
  | documents (ds : Dict Document)
  | names (names : List String)

/-- Calls an operation of a storage. -/
def Call.run {σ : Type} (s : Storage σ) : Call → Run σ Answer
  | contains name => .truth <$> s.contains name
  | read name => .document <$> s.read name
  | readMany names => .documents <$> s.readMany names
  | write name d => .truth <$> s.write name d
  | delete name => .truth <$> s.delete name
  | rename old new => .truth <$> s.rename old new
  | list start => .names <$> s.list start
  | deleteAll start => .truth <$> s.deleteAll start
  | collectionNames => .names <$> s.collectionNames

/-- The views that were opened, in their order, and the state that they work on. -/
structure Session (σ V : Type) where
  views : List V
  state : σ

namespace Session

/-- A step of a session, through a view that was opened before. -/
inductive Step
  | collection (view : Nat) (name : String)
  | call (view : Nat) (call : Call)

variable {σ V : Type} [View σ V]

/-- Opens a collection of the store of a view. -/
def openCollection (s : Session σ V) (v : V) (name : String) : Session σ V :=
  match View.collection v name s.state with
  | .ok u t => ⟨s.views ++ [u], t⟩
  | .error _ t => ⟨s.views, t⟩

/-- Calls an operation of a view. -/
def call (s : Session σ V) (v : V) (c : Call) : Session σ V :=
  ⟨s.views, (c.run (View.storage v)).after s.state⟩

/-- Takes a step. There is none through a view that was not opened. -/
def step (s : Session σ V) : Step → Session σ V
  | .collection i name => (s.views[i]?).elim s (s.openCollection · name)
  | .call i c => (s.views[i]?).elim s (s.call · c)

/-- Takes steps one after the other. -/
def run (s : Session σ V) (steps : List Step) : Session σ V := steps.foldl step s

/-- What is kept when a view is opened, and by each call through a view, is kept by a session. -/
theorem run_inv {I : Session σ V → Prop}
    (hopen : ∀ s, I s → ∀ v ∈ s.views, ∀ name, I (s.openCollection v name))
    (hcall : ∀ s, I s → ∀ v ∈ s.views, ∀ c, I (s.call v c)) {s : Session σ V} (hs : I s)
    (steps : List Step) : I (s.run steps) := by
  have hstep : ∀ s, I s → ∀ k, I (s.step k) := by
    intro s hs k
    cases k with
    | collection i name =>
      rw [step]
      cases hv : s.views[i]? with
      | none => exact hs
      | some v => exact hopen s hs v (List.mem_of_getElem? hv) name
    | call i c =>
      rw [step]
      cases hv : s.views[i]? with
      | none => exact hs
      | some v => exact hcall s hs v (List.mem_of_getElem? hv) c
  induction steps generalizing s with
  | nil => exact hs
  | cons k steps ih => exact ih (hstep s hs k)

end Session

end LayeredConfig
