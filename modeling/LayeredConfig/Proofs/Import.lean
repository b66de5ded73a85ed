import LayeredConfig.Proofs.Layer
import LayeredConfig.Proofs.Transfer
/-!
# Import

An import is a transfer from a layer into its own active shelf. `run_imported` sums it up: the active
shelf is given what is read through the filter, which in turn looks at the active shelf. So documents
that are not ignored become those of the wrapped shelf with their ignored keys as they were, and a
second import changes nothing. Documents that are ignored stay, but those that the active shelf does
not have are taken over from the wrapped one.
-/

namespace LayeredConfig.Layer

open World Transfer

variable {x : Layer} {mark : Option Nat} {c name : String} {w w' : World} {r r' : Report}
  {ds : Dict Document}

/-- Imports a layer: transfers it into its own active shelf. -/
def runImport (x : Layer) (mark : Option Nat) : Run World Report :=
  Transfer.run (x.store mark Name.defaultCollection) (Store.shelf x.active Name.defaultCollection)

/-- The documents of a collection on the shelves, before an import and after it. -/
structure Imported (x : Layer) (u v : Nat → Dict Document) : Prop where
  source : v x.base = u x.base
  target : ∀ name, ∃ o, x.merged name ((u x.active).get? name) ((u x.base).get? name) = some o ∧
    (v x.active).get? name = settled ((u x.active).get? name) o

/-! ## One collection -/

theorem reads_active
    (h : x.mergedMany (x.listed "" (w.documents x.active c) (w.documents x.base c))
      (w.documents x.active c) (w.documents x.base c) = some ds) :
    Reads (x.storage c) (Store.shelf x.active c).storage w
      (x.listed "" (w.documents x.active c) (w.documents x.base c)) ds (w.documents x.active c) where
  lists := x.list_eq c w ""
  gives := by rw [readMany_eq, h, Run.ofOption_some]
  holds := ⟨_, Store.list_shelf x.active c w "", Store.readMany_listed_shelf x.active c w⟩

/-- Where a transfer from a layer answers, all documents could be read. -/
theorem mergedMany_of_reconcile {target : Storage World}
    (h : reconcile (x.storage c) target r w = .ok r' w') :
    ∃ ds, x.mergedMany (x.listed "" (w.documents x.active c) (w.documents x.base c))
      (w.documents x.active c) (w.documents x.base c) = some ds := by
  obtain ⟨listed, u, ds, v, -, -, -, -, hlist, hread, -⟩ := reconcile_eq_ok h
  obtain ⟨rfl, rfl⟩ := Run.ok_unique (x.list_eq c w "") hlist
  rw [readMany_eq, Run.ofOption_eq_ok] at hread
  exact ⟨ds, hread.1⟩

theorem reconcile_imported (hne : x.base ≠ x.active)
    (h : reconcile (x.storage c) (Store.shelf x.active c).storage r w = .ok r' w') :
    OnlyAt x.active c w w' ∧ x.Imported (w.documents · c) (w'.documents · c) := by
  obtain ⟨ds, hds⟩ := mergedMany_of_reconcile h
  obtain ⟨honly, htarget⟩ := reconcile_shelf (reads_active hds) (x.mem_listed_iff hds) h
  exact ⟨honly, honly.documents_of_ne hne c, fun name =>
    ⟨ds.get? name, x.merged_of_listed hds name, htarget name⟩⟩

/-! ## All collections -/

/-- An import gives each collection of the active shelf what is read through the filter. -/
theorem run_imported (hne : x.base ≠ x.active)
    (h : x.runImport mark w = .ok r w') :
    OnlyOn x.active w w' ∧ ∀ c, x.Imported (w.documents · c) (w'.documents · c) := by
  refine run_collections (x.opens_store mark) (Store.opens_shelf x.active) (fun _ => x.Imported) ?_ ?_ h
  · intro c w r r' w' h
    exact reconcile_imported hne h
  · intro w
    refine ⟨x.named w, _, x.collectionNames_eq _ w, Store.collectionNames_shelf x.active _ w,
      fun c hc hours _ => ?_⟩
    obtain ⟨hbase, hactive⟩ := x.documents_of_not_mem_named hc hours
    refine ⟨rfl, fun name => ⟨none, ?_, ?_⟩⟩ <;> simp only [hbase, hactive]
    · exact x.merged_none name
    · rfl

/-- An import of the site answers. The live site has its `system.site` then. -/
theorem runImport_site : ∃ r w', site.runImport none siteWorld = .ok r w' ∧
    (w'.documents site.active "").contains "system.site" = true := by
  have hanswers : Run.answers (fun _ w' => (w'.documents site.active "").contains "system.site")
      (site.runImport none siteWorld) = true := by decide +kernel
  exact Run.exists_of_answers hanswers

/-! ## What is ignored -/

/-- An import leaves an ignored document as it is, unless the wrapped shelf has it and the active one
has not. Then it is taken over. -/
theorem import_ignored_unchanged_iff (hne : x.base ≠ x.active)
    (h : x.runImport mark w = .ok r w')
    (hig : x.ignores name = true) (c : String) :
    ((w'.documents x.active c).get? name = (w.documents x.active c).get? name ↔
      (w.documents x.active c).get? name ≠ none ∨ (w.documents x.base c).get? name = none) ∧
    (w'.documents x.active c).get? name =
      ((w.documents x.active c).get? name).or ((w.documents x.base c).get? name) := by
  obtain ⟨o, ho, hafter⟩ := ((run_imported hne h).2 c).target name
  rw [x.merged_of_ignores hig, Option.some.injEq] at ho
  have hor : (w'.documents x.active c).get? name =
      ((w.documents x.active c).get? name).or ((w.documents x.base c).get? name) := by
    rw [hafter, ← ho]
    cases (w.documents x.active c).get? name with
    | none => rfl
    | some a => simp [settled]
  refine ⟨?_, hor⟩
  rw [hor]
  cases (w.documents x.active c).get? name <;> simp

theorem import_ignored_unchanged_iff_site :
    site.base ≠ site.active ∧ site.ignores "system.cron" = true ∧
      ∃ r w', site.runImport none siteWorld = .ok r w' ∧
        ((w'.documents site.active "").get? "system.cron" =
            (siteWorld.documents site.active "").get? "system.cron" ↔
          (siteWorld.documents site.active "").get? "system.cron" ≠ none ∨
            (siteWorld.documents site.base "").get? "system.cron" = none) := by
  have hne : site.base ≠ site.active := by decide
  have hig : site.ignores "system.cron" = true := by decide +kernel
  obtain ⟨r, w', h, -⟩ := runImport_site
  exact ⟨hne, hig, r, w', h, (import_ignored_unchanged_iff hne h hig "").1⟩

/-- The live site has no `system.site`, which is ignored. After an import it has that of the other
site. -/
theorem import_takes_over_ignored_site :
    site.base ≠ site.active ∧ site.ignores "system.site" = true ∧
      (siteWorld.documents site.active "").contains "system.site" = false ∧
      ∃ r w', site.runImport none siteWorld = .ok r w' ∧
        (w'.documents site.active "").contains "system.site" = true :=
  ⟨by decide, by decide +kernel, by decide +kernel, runImport_site⟩

/-! ## What is not ignored -/

/-- Importing once more reads at each name what the import left there. -/
theorem merged_imported {a b o : Option Document} (ha : ∀ d ∈ a, d.keyed = true)
    (hb : ∀ d ∈ b, d.keyed = true) (h : x.merged name a b = some o) :
    x.merged name (settled a o) b = some o := by
  cases hig : x.ignores name with
  | true =>
    rw [x.merged_of_ignores hig, Option.some.injEq] at h ⊢
    rw [← h]
    cases a <;> cases b <;> simp [settled]
  | false =>
    rw [x.merged_of_not_ignores hig] at h ⊢
    cases b with
    | none => exact h
    | some d =>
      obtain ⟨s, hs, rfl⟩ := Option.map_eq_some_iff.mp h
      obtain ⟨e, he, -, hold | rfl⟩ := settled_same a s
      · rw [he, hold]
        exact h
      · rw [he, spliced, Ignore.splice_outcome ha (hb d rfl) hs]
        rfl

/-- Importing a collection once more changes nothing. -/
theorem reconcile_again (h : x.Imported (w.documents · c) (w'.documents · c))
    (hactive : ∀ name, ∀ d ∈ (w.documents x.active c).get? name, d.keyed = true)
    (hbase : ∀ name, ∀ d ∈ (w.documents x.base c).get? name, d.keyed = true) (r : Report) :
    ∃ r', reconcile (x.storage c) (Store.shelf x.active c).storage r w' = .ok r' w' ∧
      r.SameChanges r' := by
  have hsource : w'.documents x.base c = w.documents x.base c := h.source
  have hagain : ∀ name, ∃ o, x.merged name ((w'.documents x.active c).get? name)
      ((w'.documents x.base c).get? name) = some o ∧
      (w'.documents x.active c).get? name = settled ((w.documents x.active c).get? name) o := by
    intro name
    obtain ⟨o, ho, hafter⟩ := h.target name
    refine ⟨o, ?_, hafter⟩
    rw [hafter, hsource]
    exact merged_imported (hactive name) (hbase name) ho
  have hread : ∃ ds, x.mergedMany (x.listed "" (w'.documents x.active c) (w'.documents x.base c))
      (w'.documents x.active c) (w'.documents x.base c) = some ds := by
    refine x.exists_mergedMany fun name _ hnone => ?_
    obtain ⟨o, ho, -⟩ := hagain name
    rw [hnone] at ho
    cases ho
  obtain ⟨ds, hds⟩ := hread
  -- What is read now is what the first import had read.
  have hafter : ∀ name, (w'.documents x.active c).get? name =
      settled ((w.documents x.active c).get? name) (ds.get? name) := by
    intro name
    obtain ⟨o, ho, hafter⟩ := hagain name
    rw [x.merged_of_listed hds name, Option.some.injEq] at ho
    rw [hafter, ho]
  refine reconcile_settled (reads_active hds) (fun name d hd => ?_) (fun name hname => ?_) r
  · obtain ⟨e, he, hsame, -⟩ := settled_same ((w.documents x.active c).get? name) d
    exact ⟨e, by rw [hafter, hd, he], hsame⟩
  · rw [x.mem_listed_iff hds]
    intro hnone
    rw [Dict.contains_iff, hafter, hnone, settled_none] at hname
    exact hname rfl

theorem run_again (mark : Option Nat) (h : ∀ c, x.Imported (w.documents · c) (w'.documents · c))
    (hactive : ∀ c name, ∀ d ∈ (w.documents x.active c).get? name, d.keyed = true)
    (hbase : ∀ c name, ∀ d ∈ (w.documents x.base c).get? name, d.keyed = true) :
    ∃ r, x.runImport mark w' = .ok r w' ∧ Report.zero.SameChanges r := by
  refine run_settled (x.opens_store mark) (Store.opens_shelf x.active) (fun c r => ?_)
    ⟨_, _, x.collectionNames_eq _ w', Store.collectionNames_shelf x.active _ w'⟩
  exact reconcile_again (h c) (hactive c) (hbase c) r

/-- After an import, each document that is not ignored is that of the wrapped shelf, with its ignored
keys as they were in the active one, and documents that the wrapped shelf does not have are gone. The
wrapped shelf stays as it is, and so does everything at a second import. -/
theorem import_mirrors (hne : x.base ≠ x.active)
    (hbase : (w.shelves.get x.base).keyed = true) (hactive : (w.shelves.get x.active).keyed = true)
    (h : x.runImport mark w = .ok r w') :
    (∀ c name, x.ignores name = false →
      ((w.documents x.base c).get? name = none → (w'.documents x.active c).get? name = none) ∧
      ∀ d, (w.documents x.base c).get? name = some d → ∃ s e,
        Ignore.splice ((w.documents x.active c).get? name) (x.keys name) d = some s ∧
        Ignore.Spliced ((w.documents x.active c).get? name) (x.keys name) d s ∧
        (w'.documents x.active c).get? name = some e ∧ e.same s = true) ∧
    w'.shelves.get x.base = w.shelves.get x.base ∧
    ∃ r₂, x.runImport mark w' = .ok r₂ w' ∧
      r₂.created = 0 ∧ r₂.updated = 0 ∧ r₂.deleted = 0 := by
  obtain ⟨honly, himported⟩ := run_imported hne h
  have hbase : ∀ c name, ∀ d ∈ (w.documents x.base c).get? name, d.keyed = true :=
    fun _ _ _ hd => Shelf.keyed_of_get? hbase hd
  have hactive : ∀ c name, ∀ d ∈ (w.documents x.active c).get? name, d.keyed = true :=
    fun _ _ _ hd => Shelf.keyed_of_get? hactive hd
  obtain ⟨r₂, hrun, hsame⟩ := run_again mark himported hactive hbase
  refine ⟨fun c name hig => ?_, honly.shelves _ hne,
    r₂, hrun, hsame.created, hsame.updated, hsame.deleted⟩
  obtain ⟨o, ho, hafter⟩ := (himported c).target name
  rw [x.merged_of_not_ignores hig] at ho
  refine ⟨fun hnone => ?_, fun d hd => ?_⟩
  · rw [hnone, spliced, Option.some.injEq] at ho
    rw [hafter, ← ho, settled_none]
  · rw [hd, spliced] at ho
    obtain ⟨s, hs, rfl⟩ := Option.map_eq_some_iff.mp ho
    obtain ⟨e, he, hes, -⟩ := settled_same ((w.documents x.active c).get? name) s
    exact ⟨s, e, hs, Ignore.splice_spliced (hactive c name) (hbase c name d hd) hs,
      hafter.trans he, hes⟩

/-- The live site knows a guest, who is not known elsewhere, and a user, whose role is another one elsewhere
and whose mail address is ignored. -/
theorem import_mirrors_site :
    let live : Dict Document := .ofList [
      ("user.guest", texts [("role", "guest")]),
      ("user.settings", texts [("mail", "live@example.com"), ("role", "guest")])]
    let w := World.ofShelves (siteWorld.shelves.get site.base) (.ofDocuments live)
    site.base ≠ site.active ∧ (w.shelves.get site.base).keyed = true ∧
      (w.shelves.get site.active).keyed = true ∧
      ∃ r w', site.runImport none w = .ok r w' ∧
        w'.shelves.get site.base = w.shelves.get site.base ∧
        (site.ignores "user.guest" = false ∧ (w.documents site.base "").get? "user.guest" = none ∧
          (w.documents site.active "").contains "user.guest" = true ∧
          (w'.documents site.active "").get? "user.guest" = none) ∧
        (site.ignores "user.settings" = false ∧ site.keys "user.settings" = [⟨"mail", []⟩] ∧
          ∃ e, (w'.documents site.active "").get? "user.settings" = some e ∧
            e.same (texts [("mail", "live@example.com"), ("role", "editor")]) = true) ∧
        ∃ r₂, site.runImport none w' = .ok r₂ w' ∧
          r₂.created = 0 ∧ r₂.updated = 0 ∧ r₂.deleted = 0 := by
  intro live w
  have hne : site.base ≠ site.active := by decide
  have hbase : (w.shelves.get site.base).keyed = true := by decide +kernel
  have hactive : (w.shelves.get site.active).keyed = true := by decide +kernel
  have hguest : site.ignores "user.guest" = false := by decide +kernel
  have hnone : (w.documents site.base "").get? "user.guest" = none := rfl
  have hsettings : site.ignores "user.settings" = false := by decide +kernel
  have hmail : site.keys "user.settings" = [⟨"mail", []⟩] := by decide +kernel
  have hanswers : Run.answers (fun _ _ => true) (site.runImport none w) = true := by decide +kernel
  obtain ⟨r, w', h, -⟩ := Run.exists_of_answers hanswers
  obtain ⟨hmirrors, hsource, hagain⟩ := import_mirrors hne hbase hactive h
  obtain ⟨s, e, hs, -, he, hsame⟩ := (hmirrors "" "user.settings" hsettings).2 _ rfl
  -- What is spliced is computed from the two documents.
  rw [hmail] at hs
  cases hs
  exact ⟨hne, hbase, hactive, r, w', h, hsource,
    ⟨hguest, hnone, rfl, (hmirrors "" "user.guest" hguest).1 hnone⟩,
    ⟨hsettings, hmail, e, he, hsame⟩, hagain⟩

end LayeredConfig.Layer
