import CodeAtlas.Proofs.Index
/-!
# Orderly indexes

An index is orderly if each root has one project, and each file belongs to a project that is there
and is there once. Dropping and purging keep this whatever they drop; writing a project keeps it if
no other project has its root, and writing files if none of them is there already, however many of
their points are written.

Results:
1. `Orderly.drop`, `Orderly.purge`, `Orderly.put`, `Orderly.add_ofProject`: what changes keep.
2. `StemsFrom.eq_of_hash`: files at one path with one hash differ in nothing but the time of their
   last change, as far as the hashes of the bytes tell them apart.
-/

namespace CodeAtlas

namespace Language

/-- The language of the files with a path, by the last name of the path. -/
def ofPath? (path : String) : Option Language :=
  ((Text.splitOn (· == '/') path).getLast?.bind Path.extension?).bind ofExtension?

end Language

/-- The hashes of different contents differ, as far as the contents are known. -/
def Sha256.TellsApart (known : ByteArray → Prop) : Prop :=
  ∀ a b, known a → known b → digest a = digest b → a = b

namespace SourceFile

/-- The file was read from some of the bytes in the language that its path asks for. -/
def StemsFrom (known : ByteArray → Prop) (f : SourceFile) : Prop :=
  ∃ language bytes, known bytes ∧ Language.ofPath? f.path = some language ∧
    f = ofBytes language f.path bytes f.modified

/-- The file as it would be if it had been changed last at some other time. -/
def modifiedAt (f : SourceFile) (modified : Timestamp) : SourceFile := { f with modified }

@[simp] theorem hash_ofBytes (language : Language) (path : String) (bytes : ByteArray)
    (modified : Timestamp) : (ofBytes language path bytes modified).hash = Sha256.digest bytes := by
  unfold ofBytes
  split
  · rfl
  · dsimp only
    split <;> rfl

@[simp] theorem path_ofBytes (language : Language) (path : String) (bytes : ByteArray)
    (modified : Timestamp) : (ofBytes language path bytes modified).path = path := by
  unfold ofBytes
  split
  · rfl
  · dsimp only
    split <;> rfl

@[simp] theorem modified_ofBytes (language : Language) (path : String) (bytes : ByteArray)
    (modified : Timestamp) : (ofBytes language path bytes modified).modified = modified := by
  unfold ofBytes
  split
  · rfl
  · dsimp only
    split <;> rfl

theorem modifiedAt_ofBytes (language : Language) (path : String) (bytes : ByteArray)
    (modified later : Timestamp) :
    (ofBytes language path bytes modified).modifiedAt later = ofBytes language path bytes later := by
  unfold ofBytes modifiedAt
  split
  · rfl
  · dsimp only
    split <;> rfl

/-- Files at one path with one hash differ in the time of their last change at most. -/
theorem StemsFrom.eq_of_hash {known : ByteArray → Prop} (apart : Sha256.TellsApart known)
    {f g : SourceFile} (hf : f.StemsFrom known) (hg : g.StemsFrom known) (hpath : f.path = g.path)
    (hhash : f.hash = g.hash) : f.modifiedAt g.modified = g := by
  obtain ⟨language, bytes, hbytes, hlanguage, hf⟩ := hf
  obtain ⟨language', bytes', hbytes', hlanguage', hg⟩ := hg
  have hdigest : Sha256.digest bytes = Sha256.digest bytes' := by
    rw [← hash_ofBytes language f.path bytes f.modified, ← hf, hhash, hg, hash_ofBytes]
  cases apart bytes bytes' hbytes hbytes' hdigest
  rw [hpath, hlanguage'] at hlanguage
  cases hlanguage
  calc f.modifiedAt g.modified
      = (ofBytes language f.path bytes f.modified).modifiedAt g.modified := by rw [← hf]
    _ = ofBytes language g.path bytes g.modified := by rw [modifiedAt_ofBytes, hpath]
    _ = g := hg.symm

end SourceFile

/-- What a file of an index is told by. -/
def IndexedFile.key (e : IndexedFile) : Uuid × String := (e.project, e.path)

namespace Index

/-- Each root has one project, and each file is there once and has its project. -/
structure Orderly (ix : Index) : Prop where
  roots : (ix.projects.map (·.rootPath)).Nodup
  owned : ∀ e ∈ ix.files, ∃ p ∈ ix.projects, p.id = e.project
  once : (ix.files.map IndexedFile.key).Nodup

namespace Orderly

variable {ix : Index}

theorem empty : Orderly {} where
  roots := .nil
  owned _ he := nomatch he
  once := .nil

theorem drop (h : ix.Orderly) (id : Uuid) : (ix.drop id).Orderly where
  roots := h.roots.sublist (List.filter_sublist.map _)
  owned e he := by
    obtain ⟨hmem, hne⟩ := List.mem_filter.mp he
    obtain ⟨p, hp, hid⟩ := h.owned e hmem
    exact ⟨p, List.mem_filter.mpr ⟨hp, hid ▸ hne⟩, hid⟩
  once := h.once.sublist (List.filter_sublist.map _)

theorem purge (h : ix.Orderly) (id : Uuid) (paths : List String) :
    (ix.purge id paths).Orderly where
  roots := h.roots
  owned e he := h.owned e (List.mem_of_mem_filter he)
  once := h.once.sublist (List.filter_sublist.map _)

theorem put (h : ix.Orderly) {p : Project}
    (hroot : ∀ q ∈ ix.projects, q.rootPath = p.rootPath → q.id = p.id) :
    (ix.put p).Orderly where
  roots := by
    refine List.nodup_cons.mpr ⟨fun hmem => ?_, h.roots.sublist (List.filter_sublist.map _)⟩
    obtain ⟨q, hq, heq⟩ := List.mem_map.mp hmem
    obtain ⟨hq, hne⟩ := List.mem_filter.mp hq
    exact bne_iff_ne.mp hne (hroot q hq heq)
  owned e he := by
    obtain ⟨q, hq, hid⟩ := h.owned e he
    by_cases heq : q.id = p.id
    · exact ⟨p, List.mem_cons_self, heq.symm.trans hid⟩
    · exact ⟨q, List.mem_cons_of_mem _ (List.mem_filter.mpr ⟨hq, bne_iff_ne.mpr heq⟩), hid⟩
  once := h.once

/-- Files that are not there yet may be written, all of their points or some first ones. -/
theorem add_firstPoints (h : ix.Orderly) {es : List IndexedFile}
    (howned : ∀ e ∈ es, ∃ p ∈ ix.projects, p.id = e.project)
    (honce : (es.map IndexedFile.key).Nodup)
    (hnew : ∀ e ∈ ix.files, e.key ∉ es.map IndexedFile.key) (n : Nat) :
    (ix.add (firstPoints n es)).Orderly := by
  have hkeys := firstPoints_sublist (f := IndexedFile.key) (fun _ _ => rfl) n es
  refine ⟨h.roots, ?_, ?_⟩
  · intro e he
    rcases List.mem_append.mp he with he | he
    · exact h.owned e he
    · obtain ⟨e', he', hproject, _⟩ := mem_firstPoints he
      exact hproject ▸ howned e' he'
  · change ((ix.files ++ firstPoints n es).map IndexedFile.key).Nodup
    rw [List.map_append, List.nodup_append]
    refine ⟨h.once, honce.sublist hkeys, ?_⟩
    rintro a ha b hb rfl
    obtain ⟨e, he, rfl⟩ := List.mem_map.mp ha
    exact hnew e he (hkeys.subset hb)

/-- Files of a project may be written if their paths are different, and the project has no file at
any of them yet. -/
theorem add_ofProject (h : ix.Orderly) {id : Uuid} (howner : ∃ p ∈ ix.projects, p.id = id)
    {files : List SourceFile} (hpaths : (files.map SourceFile.path).Nodup)
    (hnew : ∀ e ∈ ix.files, e.project = id → e.path ∉ files.map SourceFile.path)
    {es : List IndexedFile} (hes : es.map IndexedFile.file = files)
    (hproject : ∀ e ∈ es, e.project = id) (n : Nat) : (ix.add (firstPoints n es)).Orderly := by
  have hpaths' : (es.map IndexedFile.path).Nodup := by
    rwa [← hes, List.map_map] at hpaths
  refine h.add_firstPoints (fun e he => hproject e he ▸ howner) ?_ (fun e he hmem => ?_) n
  · -- the paths tell the files apart already
    refine List.Nodup.map_on ?_ (List.Nodup.of_map _ hpaths')
    intro e he e' he' heq
    exact List.inj_on_of_nodup_map hpaths' he he' (congrArg Prod.snd heq)
  · obtain ⟨e', he', hkey⟩ := List.mem_map.mp hmem
    have hid : e.project = id := (congrArg Prod.fst hkey).symm.trans (hproject e' he')
    refine hnew e he hid ?_
    rw [← hes, List.map_map]
    exact List.mem_map.mpr ⟨e', he', congrArg Prod.snd hkey⟩

end Orderly

end Index

end CodeAtlas
