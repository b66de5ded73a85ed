import LayeredConfig.Proofs.Dialogue
import LayeredConfig.Proofs.Layer
/-!
# What a layer does not tell

A layer tells of its active shelf only what is ignored: documents of ignored names, and the values at
ignored keys of others. Where two active shelves have these in common (`Layer.Indistinct`), one can stand
in for the other: every call has the same answer and leaves the same wrapped shelf (`Layer.call_sameEnd`),
and so every dialogue has the same transcript (`Layer.transcript_concealed`). The names of
collections are told whatever is ignored, and are not asked for.
-/

namespace LayeredConfig

namespace Layer

open World

variable {x : Layer} {a b base : Dict Document} {c name : String} {other : Nat} {u v w : World}

/-- The documents of two active stores of which a layer tells the same: those of ignored names, and the
values at ignored keys of others, where a document that is missing has none. -/
structure Indistinct (x : Layer) (a b : Dict Document) : Prop where
  ignored : ∀ name, x.ignores name = true → a.get? name = b.get? name
  keys : ∀ name, x.ignores name = false → ∀ k ∈ x.keys name,
    (a.get? name).bind (·.at? k) = (b.get? name).bind (·.at? k)

namespace Indistinct

theorem splice_eq (h : x.Indistinct a b) (hig : x.ignores name = false) (d : Document) :
    Ignore.splice (a.get? name) (x.keys name) d = Ignore.splice (b.get? name) (x.keys name) d :=
  Ignore.splice_congr (h.keys name hig)

theorem replaced_eq (h : x.Indistinct a b) (name : String) (o : Option Document) :
    x.replaced name (a.get? name) o = x.replaced name (b.get? name) o := by
  cases hig : x.ignores name with
  | true => rw [x.replaced_of_ignores hig, x.replaced_of_ignores hig, h.ignored name hig]
  | false =>
    rw [x.replaced_of_not_ignores hig, x.replaced_of_not_ignores hig]
    cases o with
    | none => rfl
    | some d => exact congrArg (Option.map some) (h.splice_eq hig d)

theorem contains_eq (h : x.Indistinct a b) (name : String) :
    (x.ignores name && a.contains name) = (x.ignores name && b.contains name) := by
  cases hig : x.ignores name with
  | true =>
    unfold Dict.contains
    rw [h.ignored name hig]
  | false => rfl

theorem mergedMany_eq (h : x.Indistinct a b) (names : List String) (base : Dict Document) :
    x.mergedMany names a base = x.mergedMany names b base := by
  have hfilled : x.filled a = x.filled b := by
    funext name d
    unfold filled
    cases hig : x.ignores name with
    | true => rfl
    | false => simp [h.splice_eq hig]
  have hrestrict : a.restrict (names.filter x.ignores) = b.restrict (names.filter x.ignores) := by
    apply Dict.ext
    intro name
    rw [Dict.get?_restrict, Dict.get?_restrict]
    split
    · next hname => exact h.ignored name (List.mem_filter.mp hname).2
    · rfl
  unfold mergedMany
  rw [hfilled, hrestrict]

/-- The ignored names that start with a text. -/
theorem ignored_keys_eq (h : x.Indistinct a b) (start : String) :
    (a.keys.filter (·.startsWith start)).filter x.ignores =
      (b.keys.filter (·.startsWith start)).filter x.ignores := by
  refine Name.eq_of_ascending (((Dict.pairwise_keys a).filter _).filter _)
    (((Dict.pairwise_keys b).filter _).filter _) fun name => ?_
  simp only [List.mem_filter, Dict.mem_keys, Dict.contains_iff]
  constructor
  · rintro ⟨⟨hname, hstart⟩, hig⟩
    exact ⟨⟨h.ignored name hig ▸ hname, hstart⟩, hig⟩
  · rintro ⟨⟨hname, hstart⟩, hig⟩
    exact ⟨⟨(h.ignored name hig).symm ▸ hname, hstart⟩, hig⟩

theorem listed_eq (h : x.Indistinct a b) (start : String) (base : Dict Document) :
    x.listed start a base = x.listed start b base := by
  unfold listed
  rw [h.ignored_keys_eq]

theorem spares_eq (h : x.Indistinct a b) (start : String) (base : Dict Document) :
    x.spares start a base = x.spares start b base := by
  have hany : ∀ names : List String,
      names.any x.ignores = !(names.filter x.ignores).isEmpty := by
    intro names
    rw [Bool.eq_iff_iff, List.any_eq_true, Bool.not_eq_true', List.isEmpty_eq_false_iff_exists_mem]
    simp only [List.mem_filter]
  unfold spares
  rw [hany (a.keys.filter _), hany (b.keys.filter _), h.ignored_keys_eq]

end Indistinct

/-! ## Two layers over one shelf -/

/-- A layer with another active shelf. -/
def facing (x : Layer) (other : Nat) : Layer := { x with active := other }

theorem facing_base : (x.facing other).base = x.base := rfl

theorem facing_active : (x.facing other).active = other := rfl

theorem facing_ignores : (x.facing other).ignores = x.ignores := rfl

theorem facing_replaced : (x.facing other).replaced = x.replaced := rfl

theorem facing_wrote : (x.facing other).wrote = x.wrote := rfl

theorem facing_mergedMany : (x.facing other).mergedMany = x.mergedMany := rfl

theorem facing_listed : (x.facing other).listed = x.listed := rfl

theorem facing_spares : (x.facing other).spares = x.spares := rfl

/-- The worlds of a layer and of one with another active shelf: the wrapped shelves are equal, and of the
active shelves the same is told. -/
structure Concealed (x : Layer) (other : Nat) (u v : World) : Prop where
  base : u.shelves.get x.base = v.shelves.get x.base
  active : ∀ c, x.Indistinct (u.documents x.active c) (v.documents other c)

theorem Concealed.documents_eq (h : x.Concealed other u v) (c : String) :
    u.documents x.base c = v.documents x.base c := by
  unfold World.documents
  rw [h.base]

/-- The same is put on the wrapped shelf. -/
theorem Concealed.put (h : x.Concealed other u v) (hactive : x.active ≠ x.base)
    (hother : other ≠ x.base) (c : String) (ds : Dict Document) :
    x.Concealed other (u.put x.base c ds) (v.put x.base c ds) where
  base := by rw [shelves_put, shelves_put, if_pos rfl, if_pos rfl, h.base]
  active d := by
    rw [documents_put, documents_put, if_neg fun hne => hactive hne.1.symm,
      if_neg fun hne => hother hne.1.symm]
    exact h.active d

theorem Concealed.wrote (h : x.Concealed other u v) (hactive : x.active ≠ x.base)
    (hother : other ≠ x.base) (c name : String) (payload : Option Document) :
    x.Concealed other (x.wrote c u name payload) (x.wrote c v name payload) := by
  unfold Layer.wrote
  rw [h.documents_eq c]
  cases payload.filter (! ·.isEmpty) with
  | some p => exact h.put hactive hother c _
  | none =>
    simp only
    split
    · exact h.put hactive hother c _
    · exact h

/-- Two runs end with the same answer, or stop for the same cause. -/
inductive SameEnd (x : Layer) (other : Nat) {α : Type} :
    EStateM.Result Halt World α → EStateM.Result Halt World α → Prop
  | ok {a : α} {u v : World} : x.Concealed other u v → SameEnd x other (.ok a u) (.ok a v)
  | error {stop : Halt} {u v : World} :
      x.Concealed other u v → SameEnd x other (.error stop u) (.error stop v)

theorem SameEnd.map {α β : Type} {f g : Run World α} (h : SameEnd x other (f u) (g v)) (p : α → β) :
    SameEnd x other ((p <$> f) u) ((p <$> g) v) := by
  generalize hf : f u = r at h
  generalize hg : g v = s at h
  cases h with
  | ok h =>
    rw [Run.map_ok hf, Run.map_ok hg]
    exact .ok h
  | error h =>
    rw [Run.map_error hf, Run.map_error hg]
    exact .error h

theorem SameEnd.bind {α β : Type} {f g : Run World α} {p q : α → Run World β}
    (h : SameEnd x other (f u) (g v))
    (hrest : ∀ a u v, x.Concealed other u v → SameEnd x other (p a u) (q a v)) :
    SameEnd x other ((f >>= p) u) ((g >>= q) v) := by
  generalize hf : f u = r at h
  generalize hg : g v = s at h
  cases h with
  | ok h =>
    rw [Run.bind_ok hf, Run.bind_ok hg]
    exact hrest _ _ _ h
  | error h =>
    rw [Run.bind_error hf, Run.bind_error hg]
    exact .error h

theorem SameEnd.ofOption {α : Type} (h : x.Concealed other u v) (o : Option α) :
    SameEnd x other (Run.ofOption o u) (Run.ofOption o v) := by
  cases o with
  | none => exact .error h
  | some a => exact .ok h

section Calls

variable (h : x.Concealed other u v)

include h

/-- What does not depend on the shelf ends in the same way. -/
theorem ofExcept_sameEnd {α : Type} (o : Except Failure α) :
    SameEnd x other (World.onShelf x.base (.ofExcept o) u) (World.onShelf x.base (.ofExcept o) v) := by
  rw [Store.onShelf_ofExcept, Store.onShelf_ofExcept]
  cases o with
  | ok a => exact .ok h
  | error f => exact .error h

theorem contains_sameEnd (c name : String) :
    SameEnd x other ((x.storage c).contains name u) (((x.facing other).storage c).contains name v) := by
  have hcontains := (h.active c).contains_eq name
  rw [x.contains_eq, (x.facing other).contains_eq, h.documents_eq c, hcontains]
  exact .ok h

theorem read_sameEnd (c name : String) :
    SameEnd x other ((x.storage c).read name u) (((x.facing other).storage c).read name v) := by
  rw [x.read_eq, (x.facing other).read_eq, facing_replaced, h.documents_eq c, (h.active c).replaced_eq]
  exact .ofOption h _

theorem readMany_sameEnd (c : String) (names : List String) :
    SameEnd x other ((x.storage c).readMany names u)
      (((x.facing other).storage c).readMany names v) := by
  rw [x.readMany_eq, (x.facing other).readMany_eq, facing_mergedMany, h.documents_eq c,
    (h.active c).mergedMany_eq]
  exact .ofOption h _

theorem list_sameEnd (c start : String) :
    SameEnd x other ((x.storage c).list start u) (((x.facing other).storage c).list start v) := by
  rw [x.list_eq, (x.facing other).list_eq, facing_listed, h.documents_eq c, (h.active c).listed_eq]
  exact .ok h

theorem encode_sameEnd (c : String) (d : Document) :
    SameEnd x other ((x.storage c).encode d u) (((x.facing other).storage c).encode d v) := by
  rw [x.encode_eq, (x.facing other).encode_eq, Store.encode_shelf, Store.encode_shelf, facing_base]
  exact ofExcept_sameEnd h d.encode

theorem decode_sameEnd (c text : String) :
    SameEnd x other ((x.storage c).decode text u) (((x.facing other).storage c).decode text v) := by
  rw [x.decode_eq, (x.facing other).decode_eq, Store.decode_shelf, Store.decode_shelf, facing_base]
  exact ofExcept_sameEnd h (Document.decode text)

variable (hactive : x.active ≠ x.base) (hother : other ≠ x.base)

include hactive hother

theorem write_sameEnd (c name : String) (d : Document) :
    SameEnd x other ((x.storage c).write name d u) (((x.facing other).storage c).write name d v) := by
  rw [x.write_eq, (x.facing other).write_eq, facing_replaced, facing_wrote, facing_active,
    (h.active c).replaced_eq]
  cases x.replaced name ((v.documents other c).get? name) (some d) with
  | none => exact .error h
  | some payload => exact .ok (h.wrote hactive hother c name payload)

theorem delete_sameEnd (c name : String) :
    SameEnd x other ((x.storage c).delete name u) (((x.facing other).storage c).delete name v) := by
  rw [x.delete_eq, (x.facing other).delete_eq, facing_ignores, facing_base, h.documents_eq c]
  split
  · exact .ok h
  · exact .ok (h.put hactive hother c _)

theorem rename_sameEnd (c old new : String) :
    SameEnd x other ((x.storage c).rename old new u)
      (((x.facing other).storage c).rename old new v) := by
  rw [x.rename_eq, (x.facing other).rename_eq, facing_ignores, facing_base, Store.rename_shelf,
    Store.rename_shelf, h.documents_eq c]
  split
  · exact .ok h
  · cases (v.documents x.base c).get? old with
    | none => exact .ok h
    | some d => exact .ok (h.put hactive hother c _)

omit h in
/-- Documents are deleted one by one from both. -/
theorem deleteEach_sameEnd (c : String) (names : List String) (h : x.Concealed other u v) :
    SameEnd x other
      ((names.forM fun name => do discard ((x.storage c).delete name) : Run World Unit) u)
      ((names.forM fun name => do discard (((x.facing other).storage c).delete name) :
        Run World Unit) v) := by
  induction names generalizing u v with
  | nil => exact .ok h
  | cons name names ih =>
    exact SameEnd.bind ((delete_sameEnd h hactive hother c name).map _) fun _ _ _ h => ih h

theorem deleteAll_sameEnd (c start : String) :
    SameEnd x other ((x.storage c).deleteAll start u)
      (((x.facing other).storage c).deleteAll start v) := by
  rw [x.deleteAll_eq, (x.facing other).deleteAll_eq, facing_spares, facing_base, facing_active,
    h.documents_eq c, (h.active c).spares_eq]
  split
  · exact .ok (h.put hactive hother c _)
  · exact (deleteEach_sameEnd hactive hother c _ h).bind fun _ _ _ h => .ok h

/-- Every call but that for the names of collections ends with the same answer, or stops for the same
cause, and leaves the same wrapped shelf. -/
theorem call_sameEnd (c : String) {k : Call} (hk : k ≠ .collectionNames) :
    SameEnd x other (k.run (x.storage c) u) (k.run ((x.facing other).storage c) v) := by
  cases k with
  | contains name => exact (contains_sameEnd h c name).map _
  | read name => exact (read_sameEnd h c name).map _
  | readMany names => exact (readMany_sameEnd h c names).map _
  | write name d => exact (write_sameEnd h hactive hother c name d).map _
  | delete name => exact (delete_sameEnd h hactive hother c name).map _
  | rename old new => exact (rename_sameEnd h hactive hother c old new).map _
  | list start => exact (list_sameEnd h c start).map _
  | deleteAll start => exact (deleteAll_sameEnd h hactive hother c start).map _
  | collectionNames => exact (hk rfl).elim

end Calls

/-! ## Dialogues -/

/-- Views of the same collection of the two layers. -/
def SameView (x : Layer) (other : Nat) (v v' : Store) : Prop :=
  ∃ mark mark' c, v = x.store mark c ∧ v' = (x.facing other).store mark' c

theorem SameEnd.alike {α : Type} {f g : Run World α} (h : SameEnd x other (f u) (g v))
    (reply : α → Reply) : Session.Alike (x.SameView other) (x.Concealed other) Eq
      (((fun a => (reply a, ([] : List Store))) <$> f) u)
      (((fun a => (reply a, ([] : List Store))) <$> g) v) := by
  generalize hf : f u = r at h
  generalize hg : g v = s at h
  cases h with
  | ok h =>
    rw [Run.map_ok hf, Run.map_ok hg]
    exact .ok rfl .nil h
  | error h =>
    rw [Run.map_error hf, Run.map_error hg]
    exact .error h

theorem SameView.alike {s s' : Store} (hviews : x.SameView other s s') (h : x.Concealed other u v)
    (hactive : x.active ≠ x.base) (hother : other ≠ x.base) {q : Question}
    (hq : q ≠ .call .collectionNames) :
    Session.Alike (x.SameView other) (x.Concealed other) Eq (q.run s u) (q.run s' v) := by
  obtain ⟨mark, mark', c, rfl, rfl⟩ := hviews
  cases q with
  | call k =>
    have hk : k ≠ .collectionNames := by
      rintro rfl
      exact hq rfl
    exact (call_sameEnd h hactive hother c hk).alike .answer
  | collectionName => exact .ok rfl .nil h
  | encode d => exact (encode_sameEnd h c d).alike .text
  | decode text => exact (decode_sameEnd h c text).alike .document
  | collection name =>
    rw [Question.run, Question.run, Run.map_ok (x.collection_store c u mark name),
      Run.map_ok ((x.facing other).collection_store c v mark' name)]
    exact .ok rfl (.cons ⟨none, none, name, rfl, rfl⟩ .nil) h

/-- Every dialogue with a layer that does not ask for the names of collections has the replies that it has
with another active shelf, of whose documents those of ignored names are the same, and of others the values
at ignored keys. The wrapped shelf is the same at each turn. -/
theorem transcript_concealed (hactive : x.active ≠ x.base) (hother : other ≠ x.base)
    (mark mark' : Option Nat) {w : World}
    (h : ∀ c, x.Indistinct (w.documents x.active c) (w.documents other c)) {turns : List Turn}
    (hturns : ∀ k ∈ turns, k.question ≠ .call .collectionNames) :
    List.Forall₂ (fun p q => p.1 = q.1 ∧ p.2.shelves.get x.base = q.2.shelves.get x.base)
      (Session.transcript ⟨[x.store mark Name.defaultCollection], w⟩ turns)
      (Session.transcript ⟨[(x.facing other).store mark' Name.defaultCollection], w⟩ turns) := by
  have hviews : x.SameView other (x.store mark Name.defaultCollection)
      ((x.facing other).store mark' Name.defaultCollection) := ⟨mark, mark', _, rfl, rfl⟩
  have hstart : Session.Related (x.SameView other) (x.Concealed other)
      ⟨[x.store mark Name.defaultCollection], w⟩
      ⟨[(x.facing other).store mark' Name.defaultCollection], w⟩ :=
    ⟨.cons hviews .nil, ⟨rfl, h⟩⟩
  have hmay : Session.Allows (fun _ q => q ≠ .call .collectionNames)
      (⟨[(x.facing other).store mark' Name.defaultCollection], w⟩ : Session World Store) turns :=
    Session.allows_of_forall (fun k hk _ => hturns k hk) _
  have hrelated := Session.transcript_related
    (fun _ _ _ _ _ hs hst hq => SameView.alike hs hst hactive hother hq) turns hstart hmay
  exact hrelated.imp fun p q hpq => ⟨hpq.1.eq, hpq.2.base⟩

/-! ## Two sites -/

/-- The documents of a site like that of `siteWorld`, which has the same settings of the system and the same
mail address, and differs in all else. -/
def twinDocuments : Dict Document := .ofList [
  ("block.site", texts [("region", "footer")]),
  ("system.cron", texts [("interval", "daily")]),
  ("user.settings", texts [("mail", "live@example.com"), ("role", "admin")])]

def twinWorld : World :=
  { siteWorld with shelves := siteWorld.shelves.replace 2 (.ofDocuments twinDocuments) }

theorem indistinct_twin (c : String) :
    site.Indistinct (twinWorld.documents 1 c) (twinWorld.documents 2 c) := by
  have hfirst : twinWorld.documents 1 c = (Shelf.ofDocuments (.ofList [
      ("system.cron", texts [("interval", "daily")]),
      ("user.settings", texts [("mail", "live@example.com"), ("role", "guest")])])).documents c := rfl
  have hsecond : twinWorld.documents 2 c = (Shelf.ofDocuments twinDocuments).documents c := rfl
  rw [hfirst, hsecond, Shelf.documents_ofDocuments, Shelf.documents_ofDocuments]
  split
  · have hcron : site.ignores "system.cron" = true := by decide +kernel
    have hsettings : site.ignores "user.settings" = false := by decide +kernel
    have hblock : site.ignores "block.site" = false := by decide +kernel
    refine ⟨fun name hig => ?_, fun name hig k hk => ?_⟩
    · rw [twinDocuments, Dict.get?_ofList (by decide), Dict.get?_ofList (by decide)]
      have hne_block : "block.site" ≠ name := by
        rintro rfl
        cases hblock.symm.trans hig
      have hne_settings : "user.settings" ≠ name := by
        rintro rfl
        cases hsettings.symm.trans hig
      dsimp only [Dict.lookup]
      rw [if_neg hne_block, if_neg hne_settings, if_neg hne_settings]
    · rw [twinDocuments, Dict.get?_ofList (by decide), Dict.get?_ofList (by decide)]
      have hne_cron : "system.cron" ≠ name := by
        rintro rfl
        cases hcron.symm.trans hig
      dsimp only [Dict.lookup]
      rw [if_neg hne_cron, if_neg hne_cron]
      by_cases hname : "block.site" = name
      · subst hname
        have hnone : site.keys "block.site" = [] := by decide +kernel
        rw [hnone] at hk
        cases hk
      · rw [if_neg hname]
        split
        · next hname =>
          subst hname
          have hmail : site.keys "user.settings" = [⟨"mail", []⟩] := by decide +kernel
          rw [hmail, List.mem_singleton] at hk
          subst hk
          rfl
        · rfl
  · exact ⟨fun _ _ => rfl, fun _ _ _ _ => rfl⟩

/-- What is asked of the two sites: a document with an ignored key is read, all are listed, an ignored one
is written, and all are deleted, in a collection as well. -/
def twinTurns : List Turn :=
  [⟨0, .call (.read "user.settings")⟩, ⟨0, .call (.list "")⟩,
    ⟨0, .call (.write "system.cron" (texts [("interval", "hourly")]))⟩,
    ⟨0, .collection "language.de"⟩, ⟨1, .call (.write "user.settings" (texts [("role", "guest")]))⟩,
    ⟨1, .call (.deleteAll "user.")⟩, ⟨0, .call (.deleteAll "")⟩]

theorem transcript_concealed_site :
    site.active ≠ site.base ∧ 2 ≠ site.base ∧
      (∀ c, site.Indistinct (twinWorld.documents site.active c) (twinWorld.documents 2 c)) ∧
      (∀ k ∈ twinTurns, k.question ≠ .call .collectionNames) ∧
      (twinWorld.documents site.active "").get? "user.settings" ≠
        (twinWorld.documents 2 "").get? "user.settings" ∧
      List.Forall₂ (fun p q => p.1 = q.1 ∧ p.2.shelves.get site.base = q.2.shelves.get site.base)
        (Session.transcript ⟨[site.store none Name.defaultCollection], twinWorld⟩ twinTurns)
        (Session.transcript ⟨[(site.facing 2).store none Name.defaultCollection], twinWorld⟩
          twinTurns) := by
  have hactive : site.active ≠ site.base := by decide
  have hother : 2 ≠ site.base := by decide
  have hturns : ∀ k ∈ twinTurns, k.question ≠ .call .collectionNames := by simp [twinTurns]
  refine ⟨hactive, hother, indistinct_twin, hturns, ?_,
    transcript_concealed hactive hother none none indistinct_twin hturns⟩
  intro heq
  have hsame := congrArg (fun o : Option Document =>
    o.elim false (·.same (texts [("mail", "live@example.com"), ("role", "guest")]))) heq
  exact absurd hsame (by decide +kernel)

end Layer

end LayeredConfig
