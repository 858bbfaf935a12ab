import CodeAtlas.Config.Toml
import CodeAtlas.Proofs.ReadBack
import CodeAtlas.Proofs.Toml.Tables
/-!
# Saved configurations load back

A configuration is written with all its fields but those that are not set, and a field that is not set
is read as one that is not set. So what has been saved loads as what it was. It can be saved unless a
number does not fit into 64 bits with a sign, or the disk refuses the file or its directories.

Results:
1. `isSome_render?`: which tables have a text.
2. `Config.toText_isOk_iff`: which configurations have a text.
3. `Config.ofText_of_toText`: the text of a configuration is read as the configuration.
4. `Config.load_of_save`: a saved configuration loads back, and what saving may fail for.
-/

namespace CodeAtlas

/-! ## Tables with a text -/

theorem isSome_mapM {α β : Type} (f : α → Option β) (l : List α) :
    (l.mapM f).isSome ↔ ∀ a ∈ l, (f a).isSome := by
  induction l with
  | nil => simp
  | cons a l ih =>
    rw [List.mapM_cons, List.forall_mem_cons, ← ih]
    cases f a with
    | none => simp
    | some b => cases l.mapM f <;> simp

theorem isSome_bind_some {α β : Type} (f : α → β) (x : Option α) :
    (x.bind fun a => some (f a)).isSome ↔ x.isSome := by
  cases x <;> simp

namespace Toml

section

variable {entries : List (String × Toml)}

theorem isSome_renderEntries? : (renderEntries? entries).isSome ↔
    ∀ e ∈ entries, e.2.isTable = false → (renderValue? e.2).isSome := by
  rw [renderEntries?, Option.bind_eq_bind, isSome_bind_some, isSome_mapM]
  refine forall_congr' fun e => ?_
  obtain ⟨key, v⟩ := e
  rw [List.mem_filter, and_imp, Bool.not_eq_true', Option.bind_eq_bind, isSome_bind_some]

theorem isSome_renderTables? : (renderTables? entries).isSome ↔
    ∀ e ∈ entries, ∀ inner, e.2 = table inner → (renderEntries? inner).isSome := by
  rw [renderTables?, Option.bind_eq_bind, isSome_bind_some, isSome_mapM]
  refine forall_congr' fun e => imp_congr_right fun _ => ?_
  obtain ⟨key, v⟩ := e
  cases v with
  | table inner =>
    dsimp only
    rw [Option.bind_eq_bind, isSome_bind_some]
    exact ⟨fun h _ heq => by cases heq; exact h, fun h => h inner rfl⟩
  | _ => exact iff_of_true rfl fun _ heq => by cases heq

/-- A table has a text if its values, and those of the tables in it, have one. -/
theorem isSome_render? : (render? entries).isSome ↔ (renderEntries? entries).isSome ∧
    ∀ e ∈ entries, ∀ inner, e.2 = table inner → (renderEntries? inner).isSome := by
  rw [← isSome_renderTables?, render?]
  cases renderEntries? entries <;> cases renderTables? entries <;> simp

@[simp]
theorem isSome_renderValue?_strs (texts : List String) :
    (renderValue? (.arr (texts.map .str))).isSome := by
  have hitems : ((texts.map Toml.str).mapM renderScalar?).isSome := by
    rw [isSome_mapM, List.forall_mem_map]
    exact fun _ _ => rfl
  obtain ⟨shown, hshown⟩ := Option.isSome_iff_exists.mp hitems
  rw [renderValue?, hshown]
  dsimp only [bind, Option.bind_some]
  split <;> rfl

@[simp]
theorem isSome_renderValue?_nat (n : Nat) : (renderValue? (.int n)).isSome ↔ n < Nat.pow 2 63 := by
  have hpow : Int.pow 2 63 = (Nat.pow 2 63 : Nat) := rfl
  rw [renderValue?, renderScalar?, hpow]
  · split
    · next h =>
      rw [Bool.and_eq_true, decide_eq_true_iff, decide_eq_true_iff] at h
      exact iff_of_true rfl (by omega)
    · next h =>
      rw [Bool.and_eq_true, decide_eq_true_iff, decide_eq_true_iff] at h
      exact iff_of_false Bool.false_ne_true (by omega)
  · exact fun _ h => by cases h

@[simp]
theorem isSome_renderValue?_str (s : String) : (renderValue? (.str s)).isSome := rfl

end

/-- The entries of a table; other values have none. -/
def entries : Toml → List (String × Toml)
  | table es => es
  | _ => []

end Toml

/-! ## Configurations with a text -/

open Toml

/-- The numbers of a store. -/
def StoreConfig.numbers (c : StoreConfig) : List Nat :=
  [c.vectorSize, c.timeoutSeconds, c.maxAttempts, c.retryBaseDelay]

def EmbeddingConfig.numbers (c : EmbeddingConfig) : List Nat := [c.dimensions, c.cacheCapacity]

/-- The numbers of a configuration. -/
def Config.numbers (c : Config) : List Nat :=
  c.maxFileSize :: c.store.numbers ++ c.embedding.numbers

theorem StoreConfig.isSome_renderEntries? (c : StoreConfig) :
    (renderEntries? c.toToml.entries).isSome ↔ ∀ n ∈ c.numbers, n < Nat.pow 2 63 := by
  rw [Toml.isSome_renderEntries?, toToml, Toml.entries]
  cases c.apiKey <;> simp [-Prod.forall, isTable, numbers]

theorem EmbeddingConfig.isSome_renderEntries? (c : EmbeddingConfig) :
    (renderEntries? c.toToml.entries).isSome ↔ ∀ n ∈ c.numbers, n < Nat.pow 2 63 := by
  rw [Toml.isSome_renderEntries?, toToml, Toml.entries]
  cases c.apiKey <;> simp [-Prod.forall, isTable, numbers]

/-- A configuration has a text if its numbers fit into 64 bits with a sign. -/
theorem Config.isSome_render? (c : Config) :
    (render? c.toToml).isSome ↔ ∀ n ∈ c.numbers, n < Nat.pow 2 63 := by
  have hstore : c.store.toToml = .table c.store.toToml.entries := rfl
  have hembedding : c.embedding.toToml = .table c.embedding.toToml.entries := rfl
  rw [Toml.isSome_render?, Toml.isSome_renderEntries?, toToml, hstore, hembedding]
  cases c.outputDir <;>
    simp [-Prod.forall, isTable, numbers, StoreConfig.isSome_renderEntries?,
      EmbeddingConfig.isSome_renderEntries?, or_imp, forall_and]

/-! ## Reading -/

theorem Toml.strs?_map (texts : List String) : strs? (.arr (texts.map .str)) = some texts := by
  rw [strs?]
  induction texts with
  | nil => rfl
  | cons s texts ih =>
    rw [List.map_cons, List.mapM_cons, ih]
    rfl

theorem Toml.natBelow?_int {n bound : Nat} (h : n < bound) : natBelow? bound (.int n) = some n := by
  rw [natBelow?, if_pos]
  · rfl
  · rw [Bool.and_eq_true, decide_eq_true_iff, decide_eq_true_iff]
    omega

theorem Toml.nat?_int {n : Nat} (h : n < Nat.pow 2 63) : nat? (.int n) = some n :=
  natBelow?_int (Nat.lt_trans h (by decide))

/-- Keys are in order if they are among different names that need no quotes. -/
theorem Toml.HasKeys.of_sublist {entries : List (String × Toml)} (names : List String)
    (hkeys : (Keyed.keys entries).Sublist names) (hnodup : names.Nodup)
    (hplain : ∀ name ∈ names, IsKey name) : HasKeys entries where
  plain e he := hplain e.1 (hkeys.subset (List.mem_map_of_mem he))
  nodup := hnodup.sublist hkeys

theorem StoreConfig.hasKeys (c : StoreConfig) : HasKeys c.toToml.entries := by
  refine .of_sublist ["url", "collection", "vector_size", "timeout_secs", "max_attempts",
    "retry_base_delay_ms", "api_key"] ?_ (by decide +kernel) (by decide +kernel)
  rw [toToml, Toml.entries]
  cases c.apiKey with
  | none => exact List.sublist_append_left _ ["api_key"]
  | some key => exact .refl _

theorem EmbeddingConfig.hasKeys (c : EmbeddingConfig) : HasKeys c.toToml.entries := by
  refine .of_sublist ["provider", "model", "url", "dimensions", "cache_capacity", "api_key"] ?_
    (by decide +kernel) (by decide +kernel)
  rw [toToml, Toml.entries]
  cases c.apiKey with
  | none => exact List.sublist_append_left _ ["api_key"]
  | some key => exact .refl _

theorem StoreConfig.tidy_toToml (c : StoreConfig) :
    tidy c.toToml = .table (Keyed.ofList c.toToml.entries) := by
  rw [toToml]
  cases c.apiKey <;> rfl

theorem EmbeddingConfig.tidy_toToml (c : EmbeddingConfig) :
    tidy c.toToml = .table (Keyed.ofList c.toToml.entries) := by
  rw [toToml]
  cases c.apiKey <;> rfl

section

variable {α : Type} {read : Toml → Option α} {fallback a : α} {key : String} {v : Toml}
  {es : List (String × Toml)}

theorem Toml.field?_of_get? (hget : Keyed.get? key es = some v) (hread : read v = some a) :
    field? read fallback (Keyed.get? key es) = some a := by
  rw [hget]
  exact hread

/-- A field that may be unset: what is not there is read as unset. -/
theorem Toml.field?_optional {text : Option String}
    (hget : Keyed.get? key es = text.map Toml.str) :
    field? (fun v => (str? v).map some) none (Keyed.get? key es) = some text := by
  rw [hget]
  cases text <;> rfl

end

/-- A store is read from a table that has its entries. -/
theorem StoreConfig.ofToml?_of_entries {c : StoreConfig} {es : List (String × Toml)}
    (hnumbers : ∀ n ∈ c.numbers, n < Nat.pow 2 63) (hattempts : c.maxAttempts < Nat.pow 2 32)
    (hes : ∀ key, Keyed.get? key es = Keyed.get? key c.toToml.entries) :
    ofToml? (.table es) = some c := by
  simp only [numbers, List.forall_mem_cons] at hnumbers
  obtain ⟨hsize, htimeout, _, hdelay, _⟩ := hnumbers
  have hkey : Keyed.get? "api_key" c.toToml.entries = c.apiKey.map Toml.str := by
    rw [toToml, Toml.entries]
    cases c.apiKey <;> rfl
  refine Option.bind_eq_some_iff.mpr ⟨c.url, field?_of_get? (hes _) rfl, ?_⟩
  refine Option.bind_eq_some_iff.mpr ⟨c.collection, field?_of_get? (hes _) rfl, ?_⟩
  refine Option.bind_eq_some_iff.mpr ⟨c.vectorSize, field?_of_get? (hes _) (nat?_int hsize), ?_⟩
  refine Option.bind_eq_some_iff.mpr ⟨c.timeoutSeconds, field?_of_get? (hes _) (nat?_int htimeout), ?_⟩
  refine Option.bind_eq_some_iff.mpr ⟨c.maxAttempts, field?_of_get? (hes _) (natBelow?_int hattempts), ?_⟩
  refine Option.bind_eq_some_iff.mpr ⟨c.retryBaseDelay, field?_of_get? (hes _) (nat?_int hdelay), ?_⟩
  exact Option.bind_eq_some_iff.mpr ⟨c.apiKey, field?_optional ((hes _).trans hkey), rfl⟩

/-- An embedder is read from a table that has its entries. -/
theorem EmbeddingConfig.ofToml?_of_entries {c : EmbeddingConfig} {es : List (String × Toml)}
    (hnumbers : ∀ n ∈ c.numbers, n < Nat.pow 2 63)
    (hes : ∀ key, Keyed.get? key es = Keyed.get? key c.toToml.entries) :
    ofToml? (.table es) = some c := by
  simp only [numbers, List.forall_mem_cons] at hnumbers
  obtain ⟨hdimensions, hcapacity, _⟩ := hnumbers
  have hkey : Keyed.get? "api_key" c.toToml.entries = c.apiKey.map Toml.str := by
    rw [toToml, Toml.entries]
    cases c.apiKey <;> rfl
  refine Option.bind_eq_some_iff.mpr ⟨c.provider, field?_of_get? (hes _) rfl, ?_⟩
  refine Option.bind_eq_some_iff.mpr ⟨c.model, field?_of_get? (hes _) rfl, ?_⟩
  refine Option.bind_eq_some_iff.mpr ⟨c.url, field?_of_get? (hes _) rfl, ?_⟩
  refine Option.bind_eq_some_iff.mpr ⟨c.dimensions, field?_of_get? (hes _) (nat?_int hdimensions), ?_⟩
  refine Option.bind_eq_some_iff.mpr ⟨c.cacheCapacity, field?_of_get? (hes _) (nat?_int hcapacity), ?_⟩
  exact Option.bind_eq_some_iff.mpr ⟨c.apiKey, field?_optional ((hes _).trans hkey), rfl⟩

namespace Config

variable {c : Config} {text path : String} {fs : FileSystem}

theorem hasKeys (c : Config) : HasKeys c.toToml := by
  refine .of_sublist ["allowed_roots", "output_dir", "max_file_size", "default_excludes",
    "store", "embedding"] ?_ (by decide +kernel) (by decide +kernel)
  rw [toToml]
  cases c.outputDir with
  | none => exact .cons_cons _ (.cons _ (.refl _))
  | some dir => exact .refl _

theorem hasInnerKeys (c : Config) : HasInnerKeys c.toToml := by
  have hstore : ∀ inner, c.store.toToml = table inner → HasKeys inner := by
    rintro inner heq
    cases heq
    exact c.store.hasKeys
  have hembedding : ∀ inner, c.embedding.toToml = table inner → HasKeys inner := by
    rintro inner heq
    cases heq
    exact c.embedding.hasKeys
  rw [toToml]
  cases c.outputDir <;> simpa [HasInnerKeys, -Prod.forall] using ⟨hstore, hembedding⟩

/-- A configuration is read from a table that has its entries. -/
theorem ofToml?_of_entries {es : List (String × Toml)} (hnumbers : ∀ n ∈ c.numbers, n < Nat.pow 2 63)
    (hattempts : c.store.maxAttempts < Nat.pow 2 32)
    (hes : ∀ key, Keyed.get? key es = (Keyed.get? key c.toToml).map tidy) :
    ofToml? (.table es) = some c := by
  rw [numbers, List.forall_mem_append, List.forall_mem_cons] at hnumbers
  obtain ⟨⟨hsize, hstore⟩, hembedding⟩ := hnumbers
  have hget : ∀ key v, Keyed.get? key c.toToml = some v → Keyed.get? key es = some (tidy v) := by
    intro key v hv
    rw [hes, hv]
    rfl
  have hdir : Keyed.get? "output_dir" es = c.outputDir.map Toml.str := by
    rw [hes, toToml]
    cases c.outputDir <;> rfl
  obtain ⟨hgetSize, hgetExcludes, hgetStore, hgetEmbedding⟩ :
      Keyed.get? "max_file_size" c.toToml = some (.int c.maxFileSize) ∧
      Keyed.get? "default_excludes" c.toToml = some (.arr (c.defaultExcludes.map .str)) ∧
      Keyed.get? "store" c.toToml = some c.store.toToml ∧
      Keyed.get? "embedding" c.toToml = some c.embedding.toToml := by
    rw [toToml]
    cases c.outputDir <;> exact ⟨rfl, rfl, rfl, rfl⟩
  have hreadStore : StoreConfig.ofToml? (tidy c.store.toToml) = some c.store :=
    c.store.tidy_toToml ▸
      StoreConfig.ofToml?_of_entries hstore hattempts (Keyed.get?_ofList c.store.hasKeys.nodup)
  have hreadEmbedding : EmbeddingConfig.ofToml? (tidy c.embedding.toToml) = some c.embedding :=
    c.embedding.tidy_toToml ▸
      EmbeddingConfig.ofToml?_of_entries hembedding (Keyed.get?_ofList c.embedding.hasKeys.nodup)
  -- field by field, in the order in which they are read
  refine Option.bind_eq_some_iff.mpr ⟨c.allowedRoots, field?_of_get?
    (hget _ _ rfl) (strs?_map c.allowedRoots), ?_⟩
  refine Option.bind_eq_some_iff.mpr ⟨c.outputDir, field?_optional hdir, ?_⟩
  refine Option.bind_eq_some_iff.mpr ⟨c.maxFileSize, field?_of_get? (hget _ _ hgetSize)
    (nat?_int hsize), ?_⟩
  refine Option.bind_eq_some_iff.mpr ⟨c.defaultExcludes, field?_of_get? (hget _ _ hgetExcludes)
    (strs?_map c.defaultExcludes), ?_⟩
  refine Option.bind_eq_some_iff.mpr ⟨c.store, field?_of_get? (hget _ _ hgetStore) hreadStore, ?_⟩
  exact Option.bind_eq_some_iff.mpr ⟨c.embedding, field?_of_get? (hget _ _ hgetEmbedding)
    hreadEmbedding, rfl⟩

/-- The text of a configuration is read as the configuration. -/
theorem ofText_of_toText (hattempts : c.store.maxAttempts < Nat.pow 2 32)
    (h : c.toText = .ok text) : ofText text = .ok c := by
  rw [toText] at h
  split at h
  · next shown hrender =>
    cases h
    have hnumbers := c.isSome_render?.mp (Option.isSome_iff_exists.mpr ⟨_, hrender⟩)
    obtain ⟨es, hparse, hes⟩ := parse?_render c.hasKeys c.hasInnerKeys hrender
    rw [ofText, hparse, Option.bind_some, ofToml?_of_entries hnumbers hattempts hes]
  · cases h

/-- A configuration without a text has a number that is too large. -/
theorem exists_of_toText_error {e : Failure} (h : c.toText = .error e) :
    ∃ n ∈ c.numbers, Nat.pow 2 63 ≤ n := by
  refine Classical.byContradiction fun hnone => ?_
  have hnumbers : ∀ n ∈ c.numbers, n < Nat.pow 2 63 := fun n hn =>
    Nat.lt_of_not_le fun hle => hnone ⟨n, hn, hle⟩
  obtain ⟨text, hrender⟩ := Option.isSome_iff_exists.mp (c.isSome_render?.mpr hnumbers)
  rw [toText, hrender] at h
  cases h

/-- A configuration with a text is saved by writing the text. -/
theorem save_eq (htext : c.toText = .ok text) (fs : FileSystem) (path : String) :
    c.save fs path = (fs.writeBelow path text.toUTF8).mapError DiskError.failure := by
  rw [save, htext]
  rfl

/-- A configuration that has been saved loads as what it was. Saving fails only if a number does not
fit into 64 bits with a sign, or if the disk refuses the file or the directories above it. -/
theorem load_of_save (hcurrent : fs.HasCurrent) (hattempts : c.store.maxAttempts < Nat.pow 2 32) :
    (∀ fs', c.save fs path = .ok fs' → load fs' path = .ok c) ∧
      ∀ e, c.save fs path = .error e → (∃ n ∈ c.numbers, Nat.pow 2 63 ≤ n) ∨
        ∃ text refusal, c.toText = .ok text ∧
          fs.writeBelow path text.toUTF8 = .error refusal ∧ e = refusal.failure := by
  cases htext : c.toText with
  | error e =>
    have herror : c.save fs path = .error e := by
      rw [save, htext]
      rfl
    rw [herror]
    exact ⟨fun _ h => (by cases h), fun _ _ => .inl (exists_of_toText_error htext)⟩
  | ok text =>
    rw [save_eq htext]
    cases hwrite : fs.writeBelow path text.toUTF8 with
    | error refusal =>
      refine ⟨fun _ h => (by cases h), fun e h => .inr ⟨text, refusal, rfl, hwrite, ?_⟩⟩
      cases h
      rfl
    | ok written =>
      refine ⟨fun fs' h => ?_, fun _ h => (by cases h)⟩
      cases h
      rw [load, FileSystem.readText_of_writeBelow hcurrent hwrite]
      exact ofText_of_toText hattempts htext

/-- A disk with a link, behind which configurations are kept. -/
def linkedDisk : FileSystem :=
  { root := .dir [("data", .dir []), ("etc", .link "data")] }

/-- A configuration with texts in all forms of quotes, without a key, and with an empty list. -/
def quotedConfig : Config :=
  { allowedRoots := ["/a\\b", "it's", "say \"hi\"", "two\nlines\n", "\x07''' \x7f"]
    outputDir := some ""
    defaultExcludes := []
    embedding := { model := "'''\n\"\"\"\r\t", apiKey := some "𝄞 é" } }

theorem load_of_save_quotedConfig : linkedDisk.HasCurrent ∧
    quotedConfig.store.maxAttempts < Nat.pow 2 32 ∧
    ∃ fs', quotedConfig.save linkedDisk "/etc/new/config.toml" = .ok fs' ∧
      load fs' "/etc/new/config.toml" = .ok quotedConfig := by
  have hcurrent : linkedDisk.HasCurrent := ⟨fun _ h => (by cases h), rfl⟩
  have hattempts : quotedConfig.store.maxAttempts < Nat.pow 2 32 := by decide
  have hsaved : (quotedConfig.save linkedDisk "/etc/new/config.toml").isOk = true := by
    decide +kernel
  refine ⟨hcurrent, hattempts, ?_⟩
  cases h : quotedConfig.save linkedDisk "/etc/new/config.toml" with
  | error e =>
    rw [h] at hsaved
    cases hsaved
  | ok fs' => exact ⟨fs', rfl, (load_of_save hcurrent hattempts).1 fs' h⟩

end Config

end CodeAtlas
