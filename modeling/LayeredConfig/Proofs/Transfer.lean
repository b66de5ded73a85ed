import LayeredConfig.Proofs.World
import LayeredConfig.Transfer
/-!
# What a transfer does

A transfer into a collection of a shelf writes and deletes name by name, each name at most once, so
that each document afterwards is what its own write and deletion made of it (`reconcile_documents`).
A shelf has what the source gives then (`reconcile_shelf`). A transfer of stores is one of each of
their collections (`reconcileCollection_eq`), and so are its effects (`run_collections`,
`run_documents`). It changes nothing where the target has what the source has (`run_settled`).
-/

namespace LayeredConfig

open World

/-- Nothing is counted but documents that are as they were. -/
structure Report.SameChanges (r s : Report) : Prop where
  created : s.created = r.created
  updated : s.updated = r.updated
  deleted : s.deleted = r.deleted

namespace Report.SameChanges

theorem refl (r : Report) : SameChanges r r := ⟨rfl, rfl, rfl⟩

theorem trans {r s t : Report} (h : SameChanges r s) (h' : SameChanges s t) : SameChanges r t :=
  ⟨h'.created.trans h.created, h'.updated.trans h.updated, h'.deleted.trans h.deleted⟩

end Report.SameChanges

/-- How many changes are counted. -/
def Report.changes (r : Report) : Nat := r.created + r.updated + r.deleted

namespace Transfer

variable {i j : Nat} {c : String} {u v w w' : World} {r r' : Report}

/-! ## Name by name -/

/-- A loop whose steps each set one document, of another name each time. -/
theorem foldlM_sets {ε β : Type} (key : ε → String) {es : List ε} {f : β → ε → Run World β}
    {g : ε → Option Document → Option Document} {b b' : β}
    (step : ∀ e ∈ es, ∀ b u b' v, OnlyAt i c w u → f b e u = .ok b' v →
      Sets i c (key e) (g e ((u.documents i c).get? (key e))) u v)
    (hes : es.Pairwise fun x y => key x ≠ key y) (hu : OnlyAt i c w u)
    (h : es.foldlM f b u = .ok b' v) :
    OnlyAt i c u v ∧
      (∀ e ∈ es, (v.documents i c).get? (key e) = g e ((u.documents i c).get? (key e))) ∧
      ∀ name, (∀ e ∈ es, key e ≠ name) →
        (v.documents i c).get? name = (u.documents i c).get? name := by
  induction es generalizing b u with
  | nil =>
    simp only [List.foldlM_nil, Run.pure_apply, EStateM.Result.ok.injEq] at h
    obtain ⟨-, rfl⟩ := h
    exact ⟨.refl i c u, by simp, fun _ _ => rfl⟩
  | cons e es ih =>
    obtain ⟨b₁, u₁, hstep, hrest⟩ := Run.foldlM_cons_eq_ok.mp h
    have ⟨he, hes⟩ := List.pairwise_cons.mp hes
    have hset := step e (by simp) b u b₁ u₁ hu hstep
    obtain ⟨honly, hat, hout⟩ := ih (fun x hx => step x (List.mem_cons_of_mem e hx)) hes
      (hu.trans hset.only) hrest
    refine ⟨hset.only.trans honly, ?_, fun name hname => ?_⟩
    · intro x hx
      rcases List.mem_cons.mp hx with rfl | hx
      · rw [hout (key x) fun y hy => (he y hy).symm, hset.here]
      · rw [hat x hx, hset.others _ (he x hx).symm]
    · rw [hout name fun x hx => hname x (List.mem_cons_of_mem e hx),
        hset.others _ (hname e (by simp)).symm]

/-- What changing a target does to a collection of a shelf, in the worlds that differ from a first
one only there: which document is at a name after a write, and which after a deletion. -/
structure Changes (target : Storage World) (i : Nat) (c : String) (w : World)
    (written : String → Document → Option Document → Option Document)
    (deleted : String → Option Document → Option Document) : Prop where
  write : ∀ name d u b v, OnlyAt i c w u → target.write name d u = .ok b v →
    Sets i c name (written name d ((u.documents i c).get? name)) u v
  delete : ∀ name u b v, OnlyAt i c w u → target.delete name u = .ok b v →
    Sets i c name (deleted name ((u.documents i c).get? name)) u v

/-- What copying makes of the document at a name, where the source and the target have these. -/
def copied (written : Document → Option Document → Option Document)
    (incoming existing o : Option Document) : Option Document :=
  match incoming, existing with
  | none, _ => o
  | some d, some current => if current.same d then o else written d o
  | some d, none => written d o

theorem copied_of_differs {written : Document → Option Document → Option Document}
    {existing : Option Document} {d : Document}
    (h : ∀ current, existing = some current → current.same d = false) (o : Option Document) :
    copied written (some d) existing o = written d o := by
  cases existing with
  | none => rfl
  | some current => rw [copied, h current rfl, if_neg Bool.false_ne_true]

/-- What pruning makes of the document at a name. -/
def pruned (deleted : Option Document → Option Document) (listed existing : Bool)
    (o : Option Document) : Option Document :=
  if existing && !listed then deleted o else o

variable {target source : Storage World} {incoming existing : Dict Document} {listed : List String}
  {written : String → Document → Option Document → Option Document}
  {deleted : String → Option Document → Option Document}

theorem copy_sets (hc : Changes target i c w written deleted) (hu : OnlyAt i c w u)
    {e : String × Document} (h : copy target existing r e u = .ok r' v) :
    Sets i c e.1
      (copied (written e.1) (some e.2) (existing.get? e.1) ((u.documents i c).get? e.1)) u v := by
  rw [copy] at h
  cases hex : existing.get? e.1 with
  | none =>
    rw [hex] at h
    obtain ⟨b, hb⟩ := Run.of_bind_ite_eq_ok h
    exact hc.write e.1 e.2 u b v hu hb
  | some current =>
    rw [hex] at h
    by_cases hsame : current.same e.2 = true
    · simp only [hsame, if_true] at h
      rw [copied, if_pos hsame, ← (EStateM.Result.ok.inj h).2]
      exact .refl i c e.1 u
    · simp only [hsame] at h
      obtain ⟨b, hb⟩ := Run.of_bind_ite_eq_ok h
      rw [copied, if_neg hsame]
      exact hc.write e.1 e.2 u b v hu hb

theorem prune_sets (hc : Changes target i c w written deleted) (hu : OnlyAt i c w u)
    {name : String} (h : prune target listed r name u = .ok r' v) :
    Sets i c name
      (pruned (deleted name) (listed.contains name) true ((u.documents i c).get? name)) u v := by
  rw [prune] at h
  cases hlisted : listed.contains name with
  | true =>
    simp only [hlisted, if_true] at h
    rw [← (EStateM.Result.ok.inj h).2]
    exact .refl i c name u
  | false =>
    simp only [hlisted] at h
    obtain ⟨b, hb⟩ := Run.of_bind_ite_eq_ok h
    exact hc.delete name u b v hu hb

/-! ## One collection -/

/-- The steps of a transfer of one collection. -/
theorem reconcile_eq_ok (h : reconcile source target r w = .ok r' w') :
    ∃ listed u₁ incoming u₂ names u₃ existing u₄,
      source.list "" w = .ok listed u₁ ∧ source.readMany listed u₁ = .ok incoming u₂ ∧
      target.list "" u₂ = .ok names u₃ ∧ target.readMany names u₃ = .ok existing u₄ ∧
      ∃ s v, incoming.entries.foldlM (copy target existing) r u₄ = .ok s v ∧
        existing.keys.foldlM (prune target listed) s v = .ok r' w' := by
  obtain ⟨listed, u₁, h₁, h⟩ := Run.bind_eq_ok.mp h
  obtain ⟨incoming, u₂, h₂, h⟩ := Run.bind_eq_ok.mp h
  obtain ⟨names, u₃, h₃, h⟩ := Run.bind_eq_ok.mp h
  obtain ⟨existing, u₄, h₄, h⟩ := Run.bind_eq_ok.mp h
  obtain ⟨s, v, h₅, h₆⟩ := Run.bind_eq_ok.mp h
  exact ⟨listed, u₁, incoming, u₂, names, u₃, existing, u₄, h₁, h₂, h₃, h₄, s, v, h₅, h₆⟩

/-- What source and target hold, as a transfer of one collection reads them. -/
structure Reads (source target : Storage World) (w : World) (listed : List String)
    (incoming existing : Dict Document) : Prop where
  lists : source.list "" w = .ok listed w
  gives : source.readMany listed w = .ok incoming w
  holds : ∃ names, target.list "" w = .ok names w ∧ target.readMany names w = .ok existing w

/-- The two loops of a transfer of one collection. -/
theorem reconcile_loops (hreads : Reads source target w listed incoming existing)
    (h : reconcile source target r w = .ok r' w') :
    ∃ s v, incoming.entries.foldlM (copy target existing) r w = .ok s v ∧
      existing.keys.foldlM (prune target listed) s v = .ok r' w' := by
  obtain ⟨listed', u₁, incoming', u₂, names', u₃, existing', u₄, h₁, h₂, h₃, h₄, hloops⟩ :=
    reconcile_eq_ok h
  obtain ⟨hl, hi, names, hn, he⟩ := hreads
  obtain ⟨rfl, rfl⟩ := Run.ok_unique hl h₁
  obtain ⟨rfl, rfl⟩ := Run.ok_unique hi h₂
  obtain ⟨rfl, rfl⟩ := Run.ok_unique hn h₃
  obtain ⟨rfl, rfl⟩ := Run.ok_unique he h₄
  exact hloops

/-- Each document afterwards is what its own copying and pruning made of it. -/
theorem reconcile_documents (hc : Changes target i c w written deleted)
    (hreads : Reads source target w listed incoming existing)
    (h : reconcile source target r w = .ok r' w') :
    OnlyAt i c w w' ∧ ∀ name, (w'.documents i c).get? name =
      pruned (deleted name) (listed.contains name) (existing.contains name)
        (copied (written name) (incoming.get? name) (existing.get? name)
          ((w.documents i c).get? name)) := by
  obtain ⟨s, v, hcopy, hprune⟩ := reconcile_loops hreads h
  obtain ⟨honly, hin, hout⟩ := foldlM_sets (·.1)
    (fun e _ b u b' v hu h => copy_sets hc hu h) incoming.distinct_entries (.refl i c w) hcopy
  obtain ⟨honly', hin', hout'⟩ := foldlM_sets id
    (fun name _ b u b' v hu h => prune_sets hc hu h)
    (existing.pairwise_keys.imp String.ne_of_lt) honly hprune
  refine ⟨honly.trans honly', fun name => ?_⟩
  have hcopied : (v.documents i c).get? name =
      copied (written name) (incoming.get? name) (existing.get? name)
        ((w.documents i c).get? name) := by
    cases hd : incoming.get? name with
    | none => exact hout name (Dict.lookup_eq_none.mp hd)
    | some d => exact hin (name, d) (Dict.lookup_eq_some hd)
  rw [← hcopied]
  cases hex : existing.contains name with
  | false =>
    rw [pruned, Bool.false_and, if_neg Bool.false_ne_true]
    refine hout' name fun x hx heq => ?_
    rw [Dict.mem_keys, show x = name from heq, hex] at hx
    cases hx
  | true => exact hin' name (Dict.mem_keys.mpr hex)

/-- Each document that differs has been written, in a world with all but the target as it was. -/
theorem reconcile_writes (hc : Changes target i c w written deleted)
    (hreads : Reads source target w listed incoming existing)
    (h : reconcile source target r w = .ok r' w') {name : String} {d : Document}
    (hd : incoming.get? name = some d)
    (hdiffers : ∀ current, existing.get? name = some current → current.same d = false) :
    ∃ u b v, OnlyAt i c w u ∧ target.write name d u = .ok b v := by
  obtain ⟨s, v, hcopy, -⟩ := reconcile_loops hreads h
  obtain ⟨s₁, u, s₂, v, hu, hstep⟩ := Run.foldlM_steps (I := OnlyAt i c w)
    (fun e _ b u b' v hu h => hu.trans (copy_sets hc hu h).only) (.refl i c w) hcopy (name, d)
    (Dict.lookup_eq_some hd)
  rw [copy] at hstep
  cases hex : existing.get? name with
  | none =>
    simp only [hex] at hstep
    obtain ⟨b, hb⟩ := Run.of_bind_ite_eq_ok hstep
    exact ⟨u, b, v, hu, hb⟩
  | some current =>
    simp only [hex, hdiffers current hex] at hstep
    obtain ⟨b, hb⟩ := Run.of_bind_ite_eq_ok hstep
    exact ⟨u, b, v, hu, hb⟩

/-- Where the target has what the source gives, and no more, nothing is changed. -/
theorem reconcile_settled (hreads : Reads source target w listed incoming existing)
    (hsame : ∀ name d, incoming.get? name = some d →
      ∃ current, existing.get? name = some current ∧ current.same d)
    (hlisted : ∀ name, existing.contains name → name ∈ listed) (r : Report) :
    ∃ r', reconcile source target r w = .ok r' w ∧ r.SameChanges r' := by
  obtain ⟨hl, hi, names, hn, he⟩ := hreads
  have hcopy : ∀ (es : List (String × Document)) r, (∀ e ∈ es, incoming.get? e.1 = some e.2) →
      ∃ r', es.foldlM (copy target existing) r w = .ok r' w ∧ r.SameChanges r' := by
    intro es
    induction es with
    | nil => exact fun r _ => ⟨r, rfl, .refl r⟩
    | cons e es ih =>
      intro r hes
      obtain ⟨current, hcurrent, hd⟩ := hsame e.1 e.2 (hes e (by simp))
      have hstep : copy target existing r e w = .ok { r with unchanged := r.unchanged + 1 } w := by
        rw [copy, hcurrent]
        simp [hd]
      obtain ⟨r', hrun, hr⟩ := ih { r with unchanged := r.unchanged + 1 }
        fun x hx => hes x (List.mem_cons_of_mem e hx)
      exact ⟨r', by rw [List.foldlM_cons, Run.bind_ok hstep, hrun], hr.created, hr.updated, hr.deleted⟩
  have hprune : ∀ (es : List String) r, (∀ name ∈ es, name ∈ listed) →
      es.foldlM (prune target listed) r w = .ok r w := by
    intro es
    induction es with
    | nil => exact fun r _ => rfl
    | cons name es ih =>
      intro r hes
      have hstep : prune target listed r name w = .ok r w := by
        rw [prune, if_pos (by simpa using hes name (by simp))]
        rfl
      rw [List.foldlM_cons, Run.bind_ok hstep, ih r fun x hx => hes x (List.mem_cons_of_mem name hx)]
  obtain ⟨r', hrun, hr⟩ := hcopy incoming.entries r
    fun e he => Dict.lookup_of_mem incoming.ascending he
  refine ⟨r', ?_, hr⟩
  rw [reconcile, Run.bind_ok hl, Run.bind_ok hi, Run.bind_ok hn, Run.bind_ok he, Run.bind_ok hrun]
  exact hprune existing.keys r' fun name hname => hlisted name (Dict.mem_keys.mp hname)

/-! ## What always answers -/

theorem copy_answers (ht : target.Answers) (existing : Dict Document) (r : Report)
    (e : String × Document) : Run.Answers (copy target existing r e) := by
  have hwrite : ∀ p q : Report,
      Run.Answers (target.write e.1 e.2 >>= fun b => if b then pure p else pure q) :=
    fun p q => (ht.write e.1 e.2).bind fun _ => .ite (.pure p) (.pure q)
  rw [copy]
  split
  · exact .ite (.pure _) (hwrite _ _)
  · exact hwrite _ _

theorem prune_answers (ht : target.Answers) (listed : List String) (r : Report) (name : String) :
    Run.Answers (prune target listed r name) := by
  rw [prune]
  exact .ite (.pure r) ((ht.delete name).bind fun _ => .ite (.pure _) (.pure r))

/-- A transfer answers where the operations of source and target do. -/
theorem reconcile_answers (hs : source.Answers) (ht : target.Answers) (r : Report) :
    Run.Answers (reconcile source target r) := by
  refine (hs.list "").bind fun listed => (hs.readMany listed).bind fun incoming => ?_
  refine (ht.list "").bind fun names => (ht.readMany names).bind fun existing => ?_
  exact (Run.Answers.foldlM (copy_answers ht existing) _ r).bind
    (Run.Answers.foldlM (prune_answers ht listed) _)

/-! ## What is counted -/

/-- More changes are counted, or as many and the documents of a shelf are as they were. -/
def Counts (i : Nat) (r : Report) (u : World) (r' : Report) (v : World) : Prop :=
  r.changes < r'.changes ∨ r'.changes = r.changes ∧ ∀ c, v.documents i c = u.documents i c

theorem Counts.refl (r : Report) (u : World) : Counts i r u r u := .inr ⟨rfl, fun _ => rfl⟩

theorem Counts.trans {s : Report} (h : Counts i r u s v) (h' : Counts i s v r' w) :
    Counts i r u r' w := by
  rcases h with h | ⟨h, hu⟩ <;> rcases h' with h' | ⟨h', hv⟩
  · exact .inl (by omega)
  · exact .inl (by omega)
  · exact .inl (by omega)
  · exact .inr ⟨h'.trans h, fun c => (hv c).trans (hu c)⟩

theorem foldlM_counts {ε : Type} {es : List ε} {f : Report → ε → Run World Report}
    (step : ∀ e r u r' v, f r e u = .ok r' v → Counts i r u r' v)
    (h : es.foldlM f r u = .ok r' v) : Counts i r u r' v := by
  induction es generalizing r u with
  | nil =>
    simp only [List.foldlM_nil, Run.pure_apply, EStateM.Result.ok.injEq] at h
    obtain ⟨rfl, rfl⟩ := h
    exact .refl r u
  | cons e es ih =>
    obtain ⟨s, w, hstep, hrest⟩ := Run.foldlM_cons_eq_ok.mp h
    exact (step e r u s w hstep).trans (ih hrest)

/-- A change of a shelf for which the answer is no has changed nothing. -/
theorem counts_of_bind_ite {x : Run World Bool} {p : Report} (hp : r.changes < p.changes)
    (hx : ∀ v, x u = .ok false v → ∀ c, v.documents i c = u.documents i c)
    (h : (x >>= fun b => if b then pure p else pure r) u = .ok r' v) : Counts i r u r' v := by
  obtain ⟨b, w, hb, h⟩ := Run.bind_eq_ok.mp h
  cases b with
  | true =>
    obtain ⟨rfl, rfl⟩ := EStateM.Result.ok.inj h
    exact .inl hp
  | false =>
    obtain ⟨rfl, rfl⟩ := EStateM.Result.ok.inj h
    exact .inr ⟨rfl, hx w hb⟩

theorem copy_counts (i : Nat) (c : String) {e : String × Document}
    (h : copy (Store.shelf i c).storage existing r e u = .ok r' v) : Counts i r u r' v := by
  have hwrite : ∀ v, (Store.shelf i c).storage.write e.1 e.2 u = .ok false v →
      ∀ d, v.documents i d = u.documents i d := by
    intro v hv
    cases hv
  rw [copy] at h
  cases hex : existing.get? e.1 with
  | none =>
    rw [hex] at h
    exact counts_of_bind_ite (by simp only [Report.changes]; omega) hwrite h
  | some current =>
    simp only [hex] at h
    split at h
    · obtain ⟨rfl, rfl⟩ := EStateM.Result.ok.inj h
      exact .inr ⟨rfl, fun _ => rfl⟩
    · exact counts_of_bind_ite (by simp only [Report.changes]; omega) hwrite h

theorem prune_counts (i : Nat) (c : String) {name : String}
    (h : prune (Store.shelf i c).storage listed r name u = .ok r' v) : Counts i r u r' v := by
  have hdelete : ∀ v, (Store.shelf i c).storage.delete name u = .ok false v →
      ∀ d, v.documents i d = u.documents i d := by
    intro v hv d
    rw [Store.delete_shelf] at hv
    obtain ⟨habsent, rfl⟩ := EStateM.Result.ok.inj hv
    rw [Dict.erase_of_get? (Option.not_isSome_iff_eq_none.mp (Bool.eq_false_iff.mp habsent)),
      documents_put]
    split
    · next heq => rw [heq.2]
    · rfl
  rw [prune] at h
  split at h
  · obtain ⟨rfl, rfl⟩ := EStateM.Result.ok.inj h
    exact .refl r u
  · exact counts_of_bind_ite (by simp only [Report.changes]; omega) hdelete h

theorem reconcile_counts (hreads : Reads source (Store.shelf i c).storage w listed incoming existing)
    (h : reconcile source (Store.shelf i c).storage r w = .ok r' w') : Counts i r w r' w' := by
  obtain ⟨s, v, hcopy, hprune⟩ := reconcile_loops hreads h
  exact (foldlM_counts (fun _ _ _ _ _ => copy_counts i c) hcopy).trans
    (foldlM_counts (fun _ _ _ _ _ => prune_counts i c) hprune)

/-! ## Shelves -/

/-- A storage that is read like a collection of a shelf. -/
structure ReadsAs (s : Storage World) (i : Nat) (c : String) : Prop where
  list : s.list = (Store.shelf i c).storage.list
  readMany : s.readMany = (Store.shelf i c).storage.readMany

theorem readsAs_shelf (i : Nat) (c : String) : ReadsAs (Store.shelf i c).storage i c := ⟨rfl, rfl⟩

/-- A transfer between two storages that are read like collections of shelves reads these. -/
theorem reads_shelves (hs : ReadsAs source i c) (ht : ReadsAs target j c) (w : World) :
    Reads source target w ((w.documents i c).keys.filter (·.startsWith "")) (w.documents i c)
      (w.documents j c) where
  lists := by rw [hs.list, Store.list_shelf]
  gives := by rw [hs.readMany, Store.readMany_listed_shelf]
  holds := by
    rw [ht.list, ht.readMany]
    exact ⟨_, Store.list_shelf j c w "", Store.readMany_listed_shelf j c w⟩

theorem mem_listed_shelf {name : String} :
    name ∈ (w.documents i c).keys.filter (·.startsWith "") ↔ (w.documents i c).get? name ≠ none := by
  simp [Dict.mem_keys, Dict.contains_iff]

theorem contains_listed_shelf (w : World) (i : Nat) (c name : String) :
    ((w.documents i c).keys.filter (·.startsWith "")).contains name =
      (w.documents i c).contains name := by
  rw [Bool.eq_iff_iff, List.contains_iff_mem, mem_listed_shelf, Dict.contains_iff]

/-- On a shelf, what is written is there, and what is deleted is not. -/
theorem changes_shelf (i : Nat) (c : String) (w : World) :
    Changes (Store.shelf i c).storage i c w (fun _ d _ => some d) fun _ _ => none where
  write name d u b v _ h := by
    rw [Store.write_shelf] at h
    rw [← (EStateM.Result.ok.inj h).2]
    exact .insert u i c name d
  delete name u b v _ h := by
    rw [Store.delete_shelf] at h
    rw [← (EStateM.Result.ok.inj h).2]
    exact .erase u i c name

theorem shelf_answers (i : Nat) (c : String) : (Store.shelf i c).storage.Answers where
  list start w := ⟨_, w, Store.list_shelf i c w start⟩
  readMany names w := ⟨_, w, Store.readMany_shelf i c w names⟩
  write name d w := ⟨_, _, Store.write_shelf i c w name d⟩
  delete name w := ⟨_, _, Store.delete_shelf i c w name⟩
  collectionNames w := ⟨_, w, Store.collectionNames_shelf i c w⟩

/-- What a transfer into a shelf leaves at a name, where the shelf and the source have these. -/
def settled (existing incoming : Option Document) : Option Document :=
  match existing, incoming with
  | some current, some d => if current.same d then some current else some d
  | _, o => o

theorem settled_none (existing : Option Document) : settled existing none = none := by
  cases existing <;> rfl

theorem settled_same (existing : Option Document) (d : Document) :
    ∃ e, settled existing (some d) = some e ∧ e.same d = true ∧ (some e = existing ∨ e = d) := by
  cases existing with
  | none => exact ⟨d, rfl, d.same_refl, .inr rfl⟩
  | some current =>
    rw [settled]
    split <;> rename_i hsame
    · exact ⟨current, rfl, hsame, .inl rfl⟩
    · exact ⟨d, rfl, d.same_refl, .inr rfl⟩

/-- A shelf has what the source gives, and no more. -/
theorem reconcile_shelf (hreads : Reads source (Store.shelf i c).storage w listed incoming existing)
    (hlisted : ∀ name, name ∈ listed ↔ incoming.get? name ≠ none)
    (h : reconcile source (Store.shelf i c).storage r w = .ok r' w') :
    OnlyAt i c w w' ∧ ∀ name, (w'.documents i c).get? name =
      settled ((w.documents i c).get? name) (incoming.get? name) := by
  have hexisting : existing = w.documents i c := by
    obtain ⟨names, hn, he⟩ := hreads.holds
    obtain ⟨rfl, -⟩ := Run.ok_unique (Store.list_shelf i c w "") hn
    exact (Run.ok_unique he (Store.readMany_listed_shelf i c w)).1
  subst hexisting
  obtain ⟨honly, hall⟩ := reconcile_documents (changes_shelf i c w) hreads h
  refine ⟨honly, fun name => ?_⟩
  rw [hall name, pruned, List.contains_eq_mem, Dict.contains]
  cases hin : incoming.get? name with
  | none =>
    have hnot : name ∉ listed := fun hname => (hlisted name).mp hname hin
    cases hex : (w.documents i c).get? name <;> simp [hnot, copied, settled]
  | some d =>
    have hname : name ∈ listed := (hlisted name).mpr (by simp [hin])
    cases hex : (w.documents i c).get? name <;> simp [hname, copied, settled]

/-! ## All collections -/

section Collections

variable {V W : Type} [View World V] [View World W] {source : V} {target : W}
  {ours theirs : String → Storage World}

/-- The collections that a transfer goes through after the default one, where the two stores name
these. -/
def named (ours theirs : List String) : List String :=
  (Name.sortedUnique (ours ++ theirs)).filter (· ≠ Name.defaultCollection)

theorem mem_named {ours theirs : List String} {c : String} :
    c ∈ named ours theirs ↔ (c ∈ ours ∨ c ∈ theirs) ∧ c ≠ Name.defaultCollection := by
  simp [named, Name.mem_sortedUnique]

/-- A transfer of stores is one of each of their collections. -/
theorem reconcileCollection_eq (hs : View.Opens source ours) (ht : View.Opens target theirs)
    (r : Report) (c : String) (w : World) :
    reconcileCollection source target r c w = reconcile (ours c) (theirs c) r w := by
  obtain ⟨v, hv, hours⟩ := hs.collection c w
  obtain ⟨u, hu, htheirs⟩ := ht.collection c w
  rw [reconcileCollection, Run.bind_ok hv, Run.bind_ok hu, hours, htheirs]

/-- A transfer of stores is one loop over collections, each of which it goes through once: the default
one, and then those that the stores name. -/
theorem run_loop (hs : View.Opens source ours) (ht : View.Opens target theirs)
    (names : ∀ w, ∃ xs ys, (View.storage source).collectionNames w = .ok xs w ∧
      (View.storage target).collectionNames w = .ok ys w)
    (h : run source target w = .ok r w') :
    ∃ s v xs ys, reconcile (ours Name.defaultCollection) (theirs Name.defaultCollection) .zero w =
        .ok s v ∧
      (View.storage source).collectionNames v = .ok xs v ∧
      (View.storage target).collectionNames v = .ok ys v ∧
      (Name.defaultCollection :: named xs ys).Nodup ∧
      (Name.defaultCollection :: named xs ys).foldlM (reconcileCollection source target) .zero w =
        .ok r w' := by
  obtain ⟨s, v, hfirst, h⟩ := Run.bind_eq_ok.mp h
  obtain ⟨xs, ys, hxs, hys⟩ := names v
  rw [Run.bind_ok hxs, Run.bind_ok hys] at h
  rw [hs.storage, ht.storage] at hfirst
  refine ⟨s, v, xs, ys, hfirst, hxs, hys, ?_, ?_⟩
  · apply List.nodup_cons.mpr
    refine ⟨?_, (Name.nodup_sortedUnique _).filter _⟩
    intro hmem
    exact (mem_named.mp hmem).2 rfl
  · rw [← reconcileCollection_eq hs ht] at hfirst
    rw [List.foldlM_cons, Run.bind_ok hfirst]
    exact h

/-- A loop over collections does to each of them what its own transfer does, and leaves the others as
they are. -/
theorem foldlM_collections (hs : View.Opens source ours) (ht : View.Opens target theirs)
    {Post : String → (Nat → Dict Document) → (Nat → Dict Document) → Prop}
    (step : ∀ c w r r' w', reconcile (ours c) (theirs c) r w = .ok r' w' →
      OnlyAt i c w w' ∧ Post c (w.documents · c) (w'.documents · c))
    {cs : List String} (hcs : cs.Nodup)
    (h : cs.foldlM (reconcileCollection source target) r w = .ok r' w') :
    OnlyOn i w w' ∧ ∀ c, (c ∈ cs → Post c (w.documents · c) (w'.documents · c)) ∧
      (c ∉ cs → ∀ j, w'.documents j c = w.documents j c) := by
  induction cs generalizing r w with
  | nil =>
    rw [← (EStateM.Result.ok.inj h).2]
    exact ⟨.refl i w, fun c => ⟨by simp, fun _ _ => rfl⟩⟩
  | cons c cs ih =>
    obtain ⟨s, v, hstep, hrest⟩ := Run.foldlM_cons_eq_ok.mp h
    have ⟨hc, hcs⟩ := List.nodup_cons.mp hcs
    rw [reconcileCollection_eq hs ht] at hstep
    obtain ⟨honly, hpost⟩ := step c w r s v hstep
    obtain ⟨hon, hall⟩ := ih hcs hrest
    refine ⟨honly.toOnlyOn.trans hon, fun d => ⟨fun hd => ?_, fun hd j => ?_⟩⟩
    · rcases List.mem_cons.mp hd with rfl | hd
      · have hsame : (w'.documents · d) = (v.documents · d) := funext ((hall d).2 hc)
        rwa [hsame]
      · have hne : d ≠ c := fun heq => hc (heq ▸ hd)
        have hsame : (v.documents · d) = (w.documents · d) :=
          funext (honly.documents_of_collection_ne hne)
        exact hsame ▸ (hall d).1 hd
    · simp only [List.mem_cons, not_or] at hd
      rw [(hall d).2 hd.2 j, honly.documents_of_collection_ne hd.1 j]

/-- What each collection's own transfer does to it is what a transfer of stores does to it. -/
theorem run_collections (hs : View.Opens source ours) (ht : View.Opens target theirs)
    (Post : String → (Nat → Dict Document) → (Nat → Dict Document) → Prop)
    (step : ∀ c w r r' w', reconcile (ours c) (theirs c) r w = .ok r' w' →
      OnlyAt i c w w' ∧ Post c (w.documents · c) (w'.documents · c))
    (unnamed : ∀ w, ∃ xs ys, (View.storage source).collectionNames w = .ok xs w ∧
      (View.storage target).collectionNames w = .ok ys w ∧
      ∀ c ≠ Name.defaultCollection, c ∉ xs → c ∉ ys → Post c (w.documents · c) (w.documents · c))
    (h : run source target w = .ok r w') :
    OnlyOn i w w' ∧ ∀ c, Post c (w.documents · c) (w'.documents · c) := by
  have hnames : ∀ w, ∃ xs ys, (View.storage source).collectionNames w = .ok xs w ∧
      (View.storage target).collectionNames w = .ok ys w := by
    intro w
    obtain ⟨xs, ys, hxs, hys, -⟩ := unnamed w
    exact ⟨xs, ys, hxs, hys⟩
  obtain ⟨s, v, xs, ys, hfirst, hxs, hys, hnodup, hloop⟩ := run_loop hs ht hnames h
  obtain ⟨honly, -⟩ := step Name.defaultCollection w .zero s v hfirst
  obtain ⟨hon, hall⟩ := foldlM_collections hs ht step hnodup hloop
  refine ⟨hon, fun c => ?_⟩
  by_cases hc : c ∈ Name.defaultCollection :: named xs ys
  · exact (hall c).1 hc
  · -- What neither store names was as it is when they were asked for the names, too.
    have hsame : (w'.documents · c) = (w.documents · c) := funext ((hall c).2 hc)
    rw [hsame]
    obtain ⟨hdefault, hnot⟩ := not_or.mp (mt List.mem_cons.mpr hc)
    have hstart : (v.documents · c) = (w.documents · c) :=
      funext (honly.documents_of_collection_ne hdefault)
    obtain ⟨xs', ys', hxs', hys', hunnamed⟩ := unnamed v
    obtain ⟨rfl, -⟩ := Run.ok_unique hxs hxs'
    obtain ⟨rfl, -⟩ := Run.ok_unique hys hys'
    have hnames := fun hmem => hnot (mem_named.mpr ⟨hmem, hdefault⟩)
    exact hstart ▸ hunnamed c hdefault (fun hx => hnames (.inl hx)) fun hy => hnames (.inr hy)

/-- Where both stores name the collections of shelves, each document of the target becomes what the
transfer of its collection makes of it. -/
theorem run_documents (hs : View.Opens source ours) (ht : View.Opens target theirs)
    (hxs : ∀ w, (View.storage source).collectionNames w = .ok (w.shelves.get j).named w)
    (hys : ∀ w, (View.storage target).collectionNames w = .ok (w.shelves.get i).named w)
    (put : String → Option Document → Option Document → Option Document)
    (hput : ∀ name, put name none none = none)
    (step : ∀ c w r r' w', reconcile (ours c) (theirs c) r w = .ok r' w' →
      OnlyAt i c w w' ∧ ∀ name, (w'.documents i c).get? name =
        put name ((w.documents i c).get? name) ((w.documents j c).get? name))
    (h : run source target w = .ok r w') :
    OnlyOn i w w' ∧ ∀ c name, (w'.documents i c).get? name =
      put name ((w.documents i c).get? name) ((w.documents j c).get? name) := by
  refine run_collections hs ht (fun _ u v => ∀ name, (v i).get? name =
    put name ((u i).get? name) ((u j).get? name)) step ?_ h
  intro w
  refine ⟨_, _, hxs w, hys w, ?_⟩
  intro c hc hj hi name
  simp only
  rw [documents_of_not_mem_named hc hi, documents_of_not_mem_named hc hj]
  exact (hput name).symm

/-- A transfer of stores answers where those of their collections do. -/
theorem run_answers (hs : View.Opens source ours) (ht : View.Opens target theirs)
    (hours : ∀ c, (ours c).Answers) (htheirs : ∀ c, (theirs c).Answers) :
    Run.Answers (run source target) := by
  have hstep : ∀ r c, Run.Answers (reconcileCollection source target r c) := by
    intro r c w
    rw [reconcileCollection_eq hs ht]
    exact reconcile_answers (hours c) (htheirs c) r w
  rw [run, hs.storage, ht.storage]
  refine (reconcile_answers (hours _) (htheirs _) .zero).bind fun s => ?_
  refine (hours _).collectionNames.bind fun xs => (htheirs _).collectionNames.bind fun ys => ?_
  exact Run.Answers.foldlM hstep _ s

/-- A transfer counts what those of the collections count. -/
theorem run_counts (hs : View.Opens source ours) (ht : View.Opens target theirs)
    (step : ∀ c r u r' v, reconcile (ours c) (theirs c) r u = .ok r' v → Counts i r u r' v)
    (names : ∀ w, ∃ xs ys, (View.storage source).collectionNames w = .ok xs w ∧
      (View.storage target).collectionNames w = .ok ys w)
    (h : run source target w = .ok r w') : Counts i .zero w r w' := by
  obtain ⟨s, v, xs, ys, -, -, -, -, hloop⟩ := run_loop hs ht names h
  refine foldlM_counts (fun c r u r' v hstep => ?_) hloop
  rw [reconcileCollection_eq hs ht] at hstep
  exact step c r u r' v hstep

/-- A transfer changes nothing where it changes nothing in any collection. -/
theorem run_settled (hs : View.Opens source ours) (ht : View.Opens target theirs)
    (step : ∀ c r, ∃ r', reconcile (ours c) (theirs c) r w = .ok r' w ∧ r.SameChanges r')
    (names : ∃ xs ys, (View.storage source).collectionNames w = .ok xs w ∧
      (View.storage target).collectionNames w = .ok ys w) :
    ∃ r, run source target w = .ok r w ∧ Report.zero.SameChanges r := by
  obtain ⟨s, hfirst, hs₀⟩ := step Name.defaultCollection .zero
  obtain ⟨xs, ys, hxs, hys⟩ := names
  have loop : ∀ (cs : List String) (s : Report),
      ∃ r, cs.foldlM (reconcileCollection source target) s w = .ok r w ∧ s.SameChanges r := by
    intro cs
    induction cs with
    | nil => exact fun s => ⟨s, rfl, .refl s⟩
    | cons c cs ih =>
      intro s
      obtain ⟨s₁, hstep, hs₁⟩ := step c s
      rw [← reconcileCollection_eq hs ht] at hstep
      obtain ⟨r, hrun, hr⟩ := ih s₁
      exact ⟨r, by rw [List.foldlM_cons, Run.bind_ok hstep, hrun], hs₁.trans hr⟩
  obtain ⟨r, hrun, hr⟩ := loop (named xs ys) s
  refine ⟨r, ?_, hs₀.trans hr⟩
  rw [← hs.storage, ← ht.storage] at hfirst
  rw [run, Run.bind_ok hfirst, Run.bind_ok hxs, Run.bind_ok hys]
  exact hrun

end Collections

end Transfer

end LayeredConfig
