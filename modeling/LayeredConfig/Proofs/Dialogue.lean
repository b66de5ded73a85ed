import LayeredConfig.Proofs.Session
import Mathlib.Data.List.Forall2
/-!
# Dialogues

In a dialogue, the views of a store are asked anything that a view can be asked, in any order, and
views that this opens are asked in turn. Its transcript has every reply and every state. Two stores are
compared by their transcripts: what related views reply to one question is related at every turn of
every dialogue (`Session.transcript_related`).
-/

namespace LayeredConfig

/-- What a view is asked. -/
inductive Question
  | call (c : Call)
  | collectionName
  | encode (d : Document)
  | decode (text : String)
  /-- Opens another collection of the same store. -/
  | collection (name : String)

/-- What a view replies. -/
inductive Reply
  | answer (a : Answer)
  | text (s : String)
  | document (d : Document)
  | opened

/-- The same documents are answered. -/
inductive Answer.Same : Answer → Answer → Prop
  | truth (b : Bool) : Same (.truth b) (.truth b)
  | document {d e : Option Document} : Option.Rel (fun d e => d.same e = true) d e →
      Same (.document d) (.document e)
  | documents {ds es : Dict Document} :
      (∀ n, Option.Rel (fun d e => d.same e = true) (ds.get? n) (es.get? n)) →
      Same (.documents ds) (.documents es)
  | names (names : List String) : Same (.names names) (.names names)

/-- The same is replied: texts and documents of texts are equal. -/
inductive Reply.Same : Reply → Reply → Prop
  | answer {a b : Answer} : a.Same b → Same (.answer a) (.answer b)
  | text (s : String) : Same (.text s) (.text s)
  | document (d : Document) : Same (.document d) (.document d)
  | opened : Same .opened .opened

/-- The reply to a question, with the view that it opens if it opens one. -/
def Question.run {σ V : Type} [View σ V] (v : V) : Question → Run σ (Reply × List V)
  | call c => (fun a => (.answer a, [])) <$> c.run (View.storage v)
  | collectionName => pure (.text (View.storage v).collectionName, [])
  | encode d => (fun text => (.text text, [])) <$> (View.storage v).encode d
  | decode text => (fun d => (.document d, [])) <$> (View.storage v).decode text
  | collection name => (fun u => (.opened, [u])) <$> View.collection v name

/-- A question to one of the views, by its number in the order in which they were opened. -/
structure Turn where
  view : Nat
  question : Question

namespace Session

variable {σ τ V W : Type}

/-- What is replied at a turn, or why there is no reply. -/
abbrev Outcome : Type := Option (Except Halt Reply)

/-- The document that is read at a turn, if one is. -/
def found? : Outcome → Option Document
  | some (.ok (.answer (.document d))) => d
  | _ => none

/-- What a reply makes of a session. -/
def record (s : Session σ V) : EStateM.Result Halt σ (Reply × List V) → Session σ V × Outcome
  | .ok r t => (⟨s.views ++ r.2, t⟩, some (.ok r.1))
  | .error stop t => (⟨s.views, t⟩, some (.error stop))

/-- Takes a turn. A view that was not opened replies nothing. -/
def turn [View σ V] (s : Session σ V) (k : Turn) : Session σ V × Outcome :=
  match s.views[k.view]? with
  | none => (s, none)
  | some v => s.record (k.question.run v s.state)

/-- What is replied at each turn, with the state that it leaves. -/
def transcript [View σ V] (s : Session σ V) : List Turn → List (Outcome × σ)
  | [] => []
  | k :: rest => ((s.turn k).2, (s.turn k).1.state) :: transcript (s.turn k).1 rest

/-- Whether each turn asks a view what it may be asked. -/
def Allows [View σ V] (may : V → Question → Prop) (s : Session σ V) : List Turn → Prop
  | [] => True
  | k :: rest => (∀ v, s.views[k.view]? = some v → may v k.question) ∧ Allows may (s.turn k).1 rest

/-- What may be asked of every view is allowed in every session. -/
theorem allows_of_forall [View σ V] {may : V → Question → Prop} {turns : List Turn}
    (h : ∀ k ∈ turns, ∀ v, may v k.question) (s : Session σ V) : s.Allows may turns := by
  induction turns generalizing s with
  | nil => trivial
  | cons k rest ih =>
    exact ⟨fun v _ => h k List.mem_cons_self v, ih (fun k' hk => h k' (List.mem_cons_of_mem k hk)) _⟩

/-! ## Comparing two stores -/

/-- Two runs end alike: both with replies, and views that they open, or both for the same cause. -/
inductive Alike (views : V → W → Prop) (states : σ → τ → Prop) (replies : Reply → Reply → Prop) :
    EStateM.Result Halt σ (Reply × List V) → EStateM.Result Halt τ (Reply × List W) → Prop
  | ok {r : Reply} {r' : Reply} {vs : List V} {ws : List W} {s : σ} {t : τ} : replies r r' →
      List.Forall₂ views vs ws → states s t → Alike views states replies (.ok (r, vs) s) (.ok (r', ws) t)
  | error {stop : Halt} {s : σ} {t : τ} : states s t →
      Alike views states replies (.error stop s) (.error stop t)

/-- Two outcomes are alike: related replies, the same cause, or nothing. -/
inductive SameOutcome (replies : Reply → Reply → Prop) : Outcome → Outcome → Prop
  | none : SameOutcome replies none none
  | ok {r r' : Reply} : replies r r' → SameOutcome replies (some (.ok r)) (some (.ok r'))
  | error {stop : Halt} : SameOutcome replies (some (.error stop)) (some (.error stop))

theorem SameOutcome.eq {x y : Outcome} (h : SameOutcome Eq x y) : x = y := by
  cases h with
  | none => rfl
  | ok h => rw [h]
  | error => rfl

/-- Two sessions with related views, in related states. -/
structure Related (views : V → W → Prop) (states : σ → τ → Prop) (s : Session σ V) (t : Session τ W) :
    Prop where
  views : List.Forall₂ views s.views t.views
  state : states s.state t.state

variable {views : V → W → Prop} {states : σ → τ → Prop} {replies : Reply → Reply → Prop}
  {may : W → Question → Prop} {s : Session σ V} {t : Session τ W}

theorem record_related (h : Related views states s t) {x : EStateM.Result Halt σ (Reply × List V)}
    {y : EStateM.Result Halt τ (Reply × List W)} (hxy : Alike views states replies x y) :
    Related views states (s.record x).1 (t.record y).1 ∧
      SameOutcome replies (s.record x).2 (t.record y).2 := by
  cases hxy with
  | ok hr hvs hst => exact ⟨⟨List.rel_append h.views hvs, hst⟩, .ok hr⟩
  | error hst => exact ⟨⟨h.views, hst⟩, .error⟩

/-- Views that were opened under one number are related. -/
theorem views_rel (h : List.Forall₂ views s.views t.views) (i : Nat) :
    Option.Rel views s.views[i]? t.views[i]? := by
  obtain ⟨hlength, hall⟩ := List.forall₂_iff_get.mp h
  by_cases hi : i < s.views.length
  · have hi' : i < t.views.length := hlength ▸ hi
    rw [List.getElem?_eq_getElem hi, List.getElem?_eq_getElem hi']
    exact .some (hall i hi hi')
  · rw [List.getElem?_eq_none (by omega), List.getElem?_eq_none (by omega)]
    exact .none

/-- A turn of two sessions, where the views that are asked end the question alike. -/
theorem turn_related_of_views [View σ V] [View τ W] (h : Related views states s t) (k : Turn)
    (alike : ∀ v w, s.views[k.view]? = some v → t.views[k.view]? = some w → views v w →
      Alike views states replies (k.question.run v s.state) (k.question.run w t.state)) :
    Related views states (s.turn k).1 (t.turn k).1 ∧
      SameOutcome replies (s.turn k).2 (t.turn k).2 := by
  have hrel := views_rel h.views k.view
  rw [turn, turn]
  generalize s.views[k.view]? = v at hrel alike ⊢
  generalize t.views[k.view]? = w at hrel alike ⊢
  cases hrel with
  | none => exact ⟨h, .none⟩
  | some hvw => exact record_related h (alike _ _ rfl rfl hvw)

theorem turn_related [View σ V] [View τ W] (h : Related views states s t)
    (alike : ∀ v w q, views v w → may w q →
      Alike views states replies (q.run v s.state) (q.run w t.state))
    (k : Turn) (hmay : ∀ w, t.views[k.view]? = some w → may w k.question) :
    Related views states (s.turn k).1 (t.turn k).1 ∧
      SameOutcome replies (s.turn k).2 (t.turn k).2 :=
  turn_related_of_views h k fun v w _ hw hvw => alike v w k.question hvw (hmay w hw)

/-- Where related views in related states end every question alike, every dialogue has transcripts
that are alike. -/
theorem transcript_related [View σ V] [View τ W]
    (alike : ∀ v w q s t, views v w → states s t → may w q →
      Alike views states replies (q.run v s) (q.run w t))
    (turns : List Turn) (h : Related views states s t) (hmay : t.Allows may turns) :
    List.Forall₂ (fun x y => SameOutcome replies x.1 y.1 ∧ states x.2 y.2) (s.transcript turns)
      (t.transcript turns) := by
  induction turns generalizing s t with
  | nil => exact .nil
  | cons k rest ih =>
    obtain ⟨hrelated, houtcome⟩ := turn_related h
      (fun v w q hvw hq => alike v w q s.state t.state hvw h.state hq) k hmay.1
    exact .cons ⟨houtcome, hrelated.state⟩ (ih hrelated hmay.2)

/-! ## Dialogues without a crash -/

instance (o : Outcome) : Decidable (o = some (.error .crash)) :=
  match o with
  | some (.error .crash) => .isTrue rfl
  | some (.error (.failure _)) | some (.ok _) | none => .isFalse nofun

theorem run_ne_crash [View σ V] {k : Turn} {v : V} (hv : s.views[k.view]? = some v)
    (h : (s.turn k).2 ≠ some (.error .crash)) (s' : σ) :
    k.question.run v s.state ≠ .error .crash s' := by
  intro hcrash
  rw [turn, hv] at h
  simp only [hcrash, record] at h
  exact h rfl

/-- The same, where no turn of either dialogue crashes, for views in states in which they need not end a
question alike if one of them crashes. -/
theorem transcript_related_of_ne_crash [View σ V] [View τ W]
    (alike : ∀ v w q s t, views v w → states s t → may w q →
      (∀ s', q.run v s ≠ .error .crash s') → (∀ t', q.run w t ≠ .error .crash t') →
      Alike views states replies (q.run v s) (q.run w t))
    (turns : List Turn) (h : Related views states s t) (hmay : t.Allows may turns)
    (hs : ∀ e ∈ s.transcript turns, e.1 ≠ some (.error .crash))
    (ht : ∀ e ∈ t.transcript turns, e.1 ≠ some (.error .crash)) :
    List.Forall₂ (fun x y => SameOutcome replies x.1 y.1 ∧ states x.2 y.2) (s.transcript turns)
      (t.transcript turns) := by
  induction turns generalizing s t with
  | nil => exact .nil
  | cons k rest ih =>
    rw [transcript, List.forall_mem_cons] at hs ht
    have hturn := turn_related_of_views h k fun v w hv hw hvw =>
      alike v w k.question s.state t.state hvw h.state (hmay.1 w hw) (run_ne_crash hv hs.1)
        (run_ne_crash hw ht.1)
    obtain ⟨hrelated, houtcome⟩ := hturn
    exact .cons ⟨houtcome, hrelated.state⟩ (ih hrelated hmay.2 hs.2 ht.2)

end Session

end LayeredConfig
