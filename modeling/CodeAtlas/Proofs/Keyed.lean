import CodeAtlas.Keyed
/-!
# Laws of keyed maps

Looking a key up after an insertion needs no order of the entries; which entries there are does.

Results:
1. `get?_insert`, `get?_eq_some_iff`: lookups after an insertion, and lookups as membership.
2. `sorted_insert`, `sorted_ofList`: every map that is built is in the order of its keys.
   `Sorted.eq_of_perm`, `Sorted.ext`: such maps are equal if they have the same entries.
3. `insert_perm`: an insertion adds one entry and takes away those of the same key.
4. `insert_comm`, `insert_insert`: insertions under different keys may change places.
5. `erase_ofList`: to take a key away from a map is to take its entries away before.
6. `get?_ofList`, `ofList_map`: lookups in a map of entries, and maps of changed values.
7. `mem_sortedSet`, `nodup_sortedSet`: a sorted set has the texts it is made of, each once.
-/

namespace CodeAtlas.Keyed

variable {α : Type}

/-- The entries are in the order of their keys, each key once. -/
def Sorted (entries : List (String × α)) : Prop := entries.Pairwise fun a b => a.1 < b.1

instance (entries : List (String × α)) : Decidable (Sorted entries) :=
  inferInstanceAs (Decidable (List.Pairwise _ _))

theorem insert_nil (key : String) (value : α) : insert key value [] = [(key, value)] := rfl

/-- An entry is put in front of the first one of a larger key, or takes the place of one. -/
theorem insert_cons (key k : String) (value v : α) (rest : List (String × α)) :
    insert key value ((k, v) :: rest) =
      if key < k then (key, value) :: (k, v) :: rest
      else if key = k then (key, value) :: rest
      else (k, v) :: insert key value rest := by
  rw [insert]
  by_cases hkey : k < key
  · have hne : key ≠ k := fun he => String.lt_irrefl k (he ▸ hkey)
    rw [if_pos hkey, if_neg (String.lt_asymm hkey), if_neg hne]
  · rw [if_neg hkey]
    split
    · rfl
    · next hlt => rw [if_pos (String.le_antisymm (String.not_lt.mp hkey) (String.not_lt.mp hlt))]

/-! ## Looking up -/

theorem get?_cons (key k : String) (v : α) (rest : List (String × α)) :
    get? key ((k, v) :: rest) = if k = key then some v else get? key rest := by
  by_cases h : k = key <;> simp [get?, h]

@[simp] theorem get?_nil (key : String) : get? key ([] : List (String × α)) = none := rfl

/-- An insertion changes what is found under its key and nothing else. -/
theorem get?_insert (key k : String) (v : α) (entries : List (String × α)) :
    get? key (insert k v entries) = if k = key then some v else get? key entries := by
  induction entries with
  | nil => exact get?_cons key k v []
  | cons entry rest ih =>
    obtain ⟨l, w⟩ := entry
    rw [insert_cons]
    split
    · exact get?_cons key k v _
    · split
      · next hkl =>
        subst hkl
        rw [get?_cons, get?_cons]
        split <;> rfl
      · next hkl =>
        rw [get?_cons, ih, get?_cons]
        by_cases hl : l = key
        · have hk : k ≠ key := fun hk => hkl (hk.trans hl.symm)
          simp [hl, hk]
        · simp [hl]

theorem mem_of_get? {key : String} {v : α} {entries : List (String × α)}
    (h : get? key entries = some v) : (key, v) ∈ entries := by
  rw [get?, Option.map_eq_some_iff] at h
  obtain ⟨⟨k, w⟩, hf, rfl⟩ := h
  have hk : k = key := by simpa using List.find?_some hf
  exact hk ▸ List.mem_of_find?_eq_some hf

theorem get?_eq_none_iff {key : String} {entries : List (String × α)} :
    get? key entries = none ↔ key ∉ keys entries := by
  induction entries with
  | nil => simp [keys]
  | cons entry rest ih =>
    obtain ⟨k, v⟩ := entry
    rw [get?_cons]
    by_cases hk : k = key
    · simp [hk, keys]
    · rw [if_neg hk, ih]
      simp [keys, Ne.symm hk]

theorem contains_iff {key : String} {entries : List (String × α)} :
    contains key entries = true ↔ key ∈ keys entries := by
  rw [contains, Option.isSome_iff_ne_none, ne_eq, get?_eq_none_iff, Classical.not_not]

theorem contains_eq_false_iff {key : String} {entries : List (String × α)} :
    contains key entries = false ↔ key ∉ keys entries := by
  rw [← contains_iff, Bool.not_eq_true]

namespace Sorted

theorem nodup_keys {entries : List (String × α)} (hs : Sorted entries) : (keys entries).Nodup := by
  refine List.pairwise_map.mpr (hs.imp fun {a b} hab he => ?_)
  exact String.lt_irrefl b.1 (he ▸ hab)

theorem nodup {entries : List (String × α)} (hs : Sorted entries) : entries.Nodup := by
  refine List.Pairwise.imp (fun {a b} hab he => ?_) hs
  exact String.lt_irrefl b.1 (he ▸ hab)

theorem filter {entries : List (String × α)} (hs : Sorted entries) (p : String × α → Bool) :
    Sorted (entries.filter p) :=
  List.Pairwise.filter p hs

/-- In a sorted map an entry is found under its key. -/
theorem get?_eq_some_iff {entries : List (String × α)} (hs : Sorted entries) {key : String}
    {v : α} : get? key entries = some v ↔ (key, v) ∈ entries := by
  refine ⟨mem_of_get?, fun h => ?_⟩
  induction entries with
  | nil => cases h
  | cons entry rest ih =>
    obtain ⟨k, w⟩ := entry
    obtain ⟨hfirst, hrest⟩ := List.pairwise_cons.mp hs
    rw [get?_cons]
    rcases List.mem_cons.mp h with heq | hmem
    · cases heq
      exact if_pos rfl
    · have hlt : k < key := hfirst (key, v) hmem
      have hne : k ≠ key := fun he => String.lt_irrefl key (he ▸ hlt)
      rw [if_neg hne]
      exact ih hrest hmem

section

variable {a b : List (String × α)}

/-- Maps with the same entries are equal: there is only one order for them. -/
theorem eq_of_perm (ha : Sorted a) (hb : Sorted b) (h : a.Perm b) : a = b :=
  List.Perm.eq_of_pairwise (fun _ _ _ _ hab hba => absurd hba (String.lt_asymm hab)) ha hb h

theorem eq_of_mem_iff (ha : Sorted a) (hb : Sorted b) (h : ∀ e, e ∈ a ↔ e ∈ b) : a = b :=
  ha.eq_of_perm hb ((List.perm_ext_iff_of_nodup ha.nodup hb.nodup).mpr h)

/-- Maps in which the same is found under every key are equal. -/
theorem ext (ha : Sorted a) (hb : Sorted b) (h : ∀ key, get? key a = get? key b) : a = b := by
  refine ha.eq_of_mem_iff hb fun e => ?_
  obtain ⟨key, v⟩ := e
  rw [← ha.get?_eq_some_iff, ← hb.get?_eq_some_iff, h]

end

end Sorted

/-! ## Inserting -/

/-- The entries after an insertion: the new one, and the old ones of other keys. -/
theorem mem_insert {entries : List (String × α)} (hs : Sorted entries) {k : String} {v : α}
    {e : String × α} : e ∈ insert k v entries ↔ e = (k, v) ∨ (e ∈ entries ∧ e.1 ≠ k) := by
  induction entries with
  | nil => simp [insert_nil]
  | cons entry rest ih =>
    obtain ⟨l, w⟩ := entry
    obtain ⟨hfirst, hrest⟩ := List.pairwise_cons.mp hs
    have later : ∀ x ∈ rest, x.1 ≠ l := fun x hx he =>
      String.lt_irrefl l (by simpa [he] using hfirst x hx)
    -- the new key comes before the first one, is the first one, or comes behind it
    rw [insert_cons]
    split
    · next hkl =>
      have ne : ∀ x ∈ (l, w) :: rest, x.1 ≠ k := by
        intro x hx he
        rcases List.mem_cons.mp hx with rfl | hx
        · exact String.lt_irrefl k (he ▸ hkl)
        · exact String.lt_asymm hkl (he ▸ hfirst x hx)
      rw [List.mem_cons]
      exact or_congr Iff.rfl ⟨fun hx => ⟨hx, ne e hx⟩, And.left⟩
    · split
      · next hkl =>
        subst hkl
        rw [List.mem_cons, List.mem_cons]
        refine or_congr Iff.rfl ⟨fun hx => ⟨.inr hx, later e hx⟩, ?_⟩
        rintro ⟨rfl | hx, hne⟩
        · exact absurd rfl hne
        · exact hx
      · next hkl =>
        rw [List.mem_cons, ih hrest, List.mem_cons]
        constructor
        · rintro (rfl | rfl | ⟨hx, hne⟩)
          · exact .inr ⟨.inl rfl, Ne.symm hkl⟩
          · exact .inl rfl
          · exact .inr ⟨.inr hx, hne⟩
        · rintro (rfl | ⟨rfl | hx, hne⟩)
          · exact .inr (.inl rfl)
          · exact .inl rfl
          · exact .inr (.inr ⟨hx, hne⟩)

theorem sorted_insert {entries : List (String × α)} (hs : Sorted entries) (k : String) (v : α) :
    Sorted (insert k v entries) := by
  induction entries with
  | nil => exact List.pairwise_singleton _ _
  | cons entry rest ih =>
    obtain ⟨l, w⟩ := entry
    obtain ⟨hfirst, hrest⟩ := List.pairwise_cons.mp hs
    rw [insert_cons]
    split
    · next hkl =>
      refine List.pairwise_cons.mpr ⟨fun x hx => ?_, hs⟩
      rcases List.mem_cons.mp hx with rfl | hx
      · exact hkl
      · exact String.lt_trans hkl (hfirst x hx)
    · split
      · next hkl => exact hkl ▸ List.pairwise_cons.mpr ⟨hfirst, hrest⟩
      · next hlt hne =>
        refine List.pairwise_cons.mpr ⟨fun x hx => ?_, ih hrest⟩
        rcases (mem_insert hrest).mp hx with rfl | ⟨hx, _⟩
        · -- neither smaller nor equal, so larger
          exact Decidable.byContradiction fun hle =>
            hne (String.le_antisymm (String.not_lt.mp hle) (String.not_lt.mp hlt))
        · exact hfirst x hx

/-- An insertion of a key that is not there adds one entry. -/
theorem insert_perm_cons {k : String} {entries : List (String × α)} (h : k ∉ keys entries)
    (v : α) : (insert k v entries).Perm ((k, v) :: entries) := by
  induction entries with
  | nil => exact .refl _
  | cons entry rest ih =>
    obtain ⟨l, w⟩ := entry
    have hkl : k ≠ l := fun he => h (by simp [keys, he])
    have hrest : k ∉ keys rest := fun hk => h (List.mem_cons_of_mem l hk)
    rw [insert_cons, if_neg hkl]
    split
    · exact .refl _
    · exact ((ih hrest).cons (l, w)).trans (.swap (k, v) (l, w) rest)

/-- An insertion adds one entry and takes away the entry of its key. -/
theorem insert_perm {k : String} {entries : List (String × α)} (hs : Sorted entries) (v : α) :
    (insert k v entries).Perm ((k, v) :: erase k entries) := by
  induction entries with
  | nil => exact .refl _
  | cons entry rest ih =>
    obtain ⟨l, w⟩ := entry
    obtain ⟨hfirst, hrest⟩ := List.pairwise_cons.mp hs
    have untouched : ∀ bound, bound ≤ l → erase bound rest = rest := by
      intro bound hle
      refine List.filter_eq_self.mpr fun x hx => ?_
      have hne : x.1 ≠ bound := fun he => String.not_lt.mpr hle (he ▸ hfirst x hx)
      simpa using hne
    rw [insert_cons]
    split
    · next hkl =>
      have hne : l ≠ k := fun he => String.lt_irrefl k (he ▸ hkl)
      rw [erase, List.filter_cons_of_pos (by simpa using hne)]
      have : erase k rest = rest := untouched k (String.not_lt.mp (String.lt_asymm hkl))
      rw [erase] at this
      rw [this]
    · split
      · next hkl =>
        subst hkl
        rw [erase, List.filter_cons_of_neg (by simp)]
        have : erase k rest = rest := untouched k (String.le_refl k)
        rw [erase] at this
        rw [this]
      · next hkl =>
        rw [erase, List.filter_cons_of_pos (by simpa using Ne.symm hkl)]
        exact ((ih hrest).cons (l, w)).trans (.swap (k, v) (l, w) _)

theorem insert_insert (k : String) (v w : α) (entries : List (String × α)) :
    insert k v (insert k w entries) = insert k v entries := by
  induction entries with
  | nil => simp [insert_nil, insert_cons]
  | cons entry rest ih =>
    obtain ⟨l, u⟩ := entry
    by_cases hlt : k < l
    · simp [insert_cons, hlt]
    · by_cases heq : k = l
      · simp [insert_cons, heq]
      · simp [insert_cons, hlt, heq, ih]

/-- Insertions under different keys may change places. -/
theorem insert_comm {k l : String} (h : k ≠ l) (v w : α) (entries : List (String × α)) :
    insert k v (insert l w entries) = insert l w (insert k v entries) := by
  rcases String.le_total k l with hle | hle
  · exact below (lt_of_le_of_ne hle h) entries v w
  · exact (below (lt_of_le_of_ne hle (Ne.symm h)) entries w v).symm
where
  lt_of_le_of_ne {k l : String} (hle : k ≤ l) (hne : k ≠ l) : k < l :=
    Decidable.byContradiction fun hlt => hne (String.le_antisymm hle (String.not_lt.mp hlt))
  below {k l : String} (hkl : k < l) (entries : List (String × α)) (v w : α) :
      insert k v (insert l w entries) = insert l w (insert k v entries) := by
    have hlk : ¬ l < k := String.lt_asymm hkl
    have hne : k ≠ l := fun he => String.lt_irrefl l (he ▸ hkl)
    induction entries with
    | nil => simp [insert_nil, insert_cons, hkl, hlk, Ne.symm hne]
    | cons entry rest ih =>
      obtain ⟨m, u⟩ := entry
      by_cases hlm : l < m
      · have hkm : k < m := String.lt_trans hkl hlm
        simp [insert_cons, hlm, hkm, hkl, hlk, Ne.symm hne]
      · by_cases hlm' : l = m
        · subst hlm'
          simp [insert_cons, hkl, hlk, Ne.symm hne]
        · by_cases hkm : k < m
          · simp [insert_cons, hlm, hlm', hkm, hlk, Ne.symm hne]
          · by_cases hkm' : k = m
            · subst hkm'
              simp [insert_cons, hlk, hlm']
            · simp [insert_cons, hlm, hlm', hkm, hkm', ih]

/-! ## Taking away -/

/-- A key below all others comes first. -/
theorem insert_of_lt {k : String} {entries : List (String × α)} (h : ∀ e ∈ entries, k < e.1)
    (v : α) : insert k v entries = (k, v) :: entries := by
  cases entries with
  | nil => rfl
  | cons entry rest => rw [insert_cons, if_pos (h entry List.mem_cons_self)]

theorem erase_cons (k l : String) (v : α) (entries : List (String × α)) :
    erase k ((l, v) :: entries) = if l = k then erase k entries else (l, v) :: erase k entries := by
  by_cases h : l = k <;> simp [erase, h]

theorem erase_insert {k l : String} {entries : List (String × α)} (hs : Sorted entries) (v : α) :
    erase k (insert l v entries) =
      if l = k then erase k entries else insert l v (erase k entries) := by
  induction entries with
  | nil =>
    split
    · next h => simp [insert_nil, erase, h]
    · next h => simp [insert_nil, erase, h]
  | cons entry rest ih =>
    obtain ⟨m, w⟩ := entry
    obtain ⟨hfirst, hrest⟩ := List.pairwise_cons.mp hs
    -- the new key comes before the first one, is the first one, or comes behind it
    rw [insert_cons]
    split
    · next hlm =>
      rw [erase_cons]
      congr 1
      refine (insert_of_lt (fun e he => ?_) v).symm
      rcases List.mem_cons.mp (List.mem_filter.mp he).1 with rfl | he
      · exact hlm
      · exact String.lt_trans hlm (hfirst e he)
    · next hle =>
      split
      · next hlm =>
        subst hlm
        rw [erase_cons, erase_cons]
        split
        · rfl
        · rw [insert_cons, if_neg hle, if_pos rfl]
      · next hlm =>
        rw [erase_cons, erase_cons, ih hrest]
        split
        · rfl
        · rw [insert_cons, if_neg hle, if_neg hlm]
          split <;> rfl

/-! ## Maps of entries -/

theorem sorted_foldl_insert (entries acc : List (String × α)) (hs : Sorted acc) :
    Sorted (entries.foldl (fun acc (k, v) => insert k v acc) acc) := by
  induction entries generalizing acc with
  | nil => exact hs
  | cons entry rest ih => exact ih _ (sorted_insert hs entry.1 entry.2)

theorem sorted_ofList (entries : List (String × α)) : Sorted (ofList entries) :=
  sorted_foldl_insert entries [] .nil

theorem mem_keys_foldl_insert {key : String} (entries acc : List (String × α)) :
    key ∈ keys (entries.foldl (fun acc (k, v) => insert k v acc) acc) ↔
      key ∈ keys entries ∨ key ∈ keys acc := by
  induction entries generalizing acc with
  | nil => simp [keys]
  | cons entry rest ih =>
    obtain ⟨k, v⟩ := entry
    have step : key ∈ keys (insert k v acc) ↔ key = k ∨ key ∈ keys acc := by
      rw [← contains_iff, contains, get?_insert, ← contains_iff, contains]
      by_cases hk : k = key
      · simp [hk]
      · simp [hk, Ne.symm hk]
    rw [List.foldl_cons, ih, step]
    simp only [keys, List.map_cons, List.mem_cons]
    constructor
    · rintro (h | h | h)
      · exact .inl (.inr h)
      · exact .inl (.inl h)
      · exact .inr h
    · rintro ((h | h) | h)
      · exact .inr (.inl h)
      · exact .inl h
      · exact .inr (.inr h)

theorem mem_keys_ofList {key : String} {entries : List (String × α)} :
    key ∈ keys (ofList entries) ↔ key ∈ keys entries := by
  rw [ofList, mem_keys_foldl_insert]
  simp [keys]

/-- To take a key away from a map is to take its entries away before. -/
theorem erase_ofList (k : String) (entries : List (String × α)) :
    erase k (ofList entries) = ofList (erase k entries) := by
  have hfold : ∀ acc : List (String × α), Sorted acc →
      erase k (entries.foldl (fun acc e => insert e.1 e.2 acc) acc) =
        (erase k entries).foldl (fun acc e => insert e.1 e.2 acc) (erase k acc) := by
    induction entries with
    | nil => exact fun _ _ => rfl
    | cons e rest ih =>
      intro acc hacc
      rw [List.foldl_cons, ih _ (sorted_insert hacc e.1 e.2), erase_insert hacc, erase_cons]
      split <;> rfl
  exact hfold [] .nil

/-- A value of a map of entries is that of an entry. -/
theorem mem_of_get?_ofList {key : String} {v : α} {entries : List (String × α)}
    (h : get? key (ofList entries) = some v) : (key, v) ∈ entries := by
  have go : ∀ entries acc : List (String × α),
      get? key (entries.foldl (fun acc (k, v) => insert k v acc) acc) = some v →
        (key, v) ∈ entries ∨ get? key acc = some v := by
    intro entries
    induction entries with
    | nil => exact fun _ h => .inr h
    | cons entry rest ih =>
      intro acc hget
      obtain ⟨k, w⟩ := entry
      rcases ih (insert k w acc) hget with hmem | hlast
      · exact .inl (List.mem_cons_of_mem _ hmem)
      · rw [get?_insert] at hlast
        split at hlast
        · next hk =>
          rw [← hk, ← Option.some.inj hlast]
          exact .inl List.mem_cons_self
        · exact .inr hlast
  exact (go entries [] h).resolve_right nofun

/-- A map of entries with different keys has just these entries. -/
theorem ofList_perm {entries : List (String × α)} (h : (keys entries).Nodup) :
    (ofList entries).Perm entries := by
  have go : ∀ (entries acc : List (String × α)), (keys (entries ++ acc)).Nodup →
      (entries.foldl (fun acc (k, v) => insert k v acc) acc).Perm (entries ++ acc) := by
    intro entries
    induction entries with
    | nil => intro acc _; exact .refl _
    | cons entry rest ih =>
      intro acc hnodup
      obtain ⟨k, v⟩ := entry
      have hk : k ∉ keys acc := by
        intro hk
        have := (List.nodup_cons.mp hnodup).1
        exact this (by simpa [keys] using Or.inr (by simpa [keys] using hk))
      have swapped : ((k, v) :: (rest ++ acc)).Perm (rest ++ insert k v acc) :=
        (List.perm_middle.symm).trans ((insert_perm_cons hk v).symm.append_left rest)
      refine (ih (insert k v acc) ?_).trans swapped.symm
      exact (swapped.map Prod.fst).nodup_iff.mp hnodup
  have := go entries [] (by simpa using h)
  simpa [ofList] using this

/-! ## Maps of values -/

section

variable {β : Type} (f : α → β)

theorem get?_map (key : String) (entries : List (String × α)) :
    get? key (entries.map fun (k, v) => (k, f v)) = (get? key entries).map f := by
  induction entries with
  | nil => rfl
  | cons e rest ih =>
    obtain ⟨k, v⟩ := e
    rw [List.map_cons, get?_cons, get?_cons, ih]
    split <;> rfl

theorem insert_map (key : String) (value : α) (entries : List (String × α)) :
    insert key (f value) (entries.map fun (k, v) => (k, f v)) =
      (insert key value entries).map fun (k, v) => (k, f v) := by
  induction entries with
  | nil => rfl
  | cons e rest ih =>
    obtain ⟨k, v⟩ := e
    rw [List.map_cons, insert_cons, insert_cons, ih]
    split
    · rfl
    · split <;> rfl

theorem ofList_map (entries : List (String × α)) :
    ofList (entries.map fun (k, v) => (k, f v)) = (ofList entries).map fun (k, v) => (k, f v) := by
  have go : ∀ acc : List (String × α),
      (entries.map fun (k, v) => (k, f v)).foldl (fun acc (k, v) => insert k v acc)
          (acc.map fun (k, v) => (k, f v)) =
        (entries.foldl (fun acc (k, v) => insert k v acc) acc).map fun (k, v) => (k, f v) := by
    induction entries with
    | nil => exact fun _ => rfl
    | cons e rest ih =>
      intro acc
      obtain ⟨k, v⟩ := e
      rw [List.map_cons, List.foldl_cons, List.foldl_cons, ← ih, ← insert_map]
  exact go []

end

theorem get?_append (key : String) (entries more : List (String × α)) :
    get? key (entries ++ more) = (get? key entries).or (get? key more) := by
  rw [get?, get?, get?, List.find?_append, Option.map_or]

/-- In a map of entries with different keys each is found under its key. -/
theorem get?_ofList {entries : List (String × α)} (h : (keys entries).Nodup) (key : String) :
    get? key (ofList entries) = get? key entries := by
  have go : ∀ acc : List (String × α),
      get? key (entries.foldl (fun acc (k, v) => insert k v acc) acc) =
        (get? key entries).or (get? key acc) := by
    induction entries with
    | nil => exact fun _ => rfl
    | cons e rest ih =>
      intro acc
      obtain ⟨k, v⟩ := e
      obtain ⟨hk, hrest⟩ := List.nodup_cons.mp h
      rw [List.foldl_cons, ih hrest, get?_insert, get?_cons]
      by_cases hkey : k = key
      · rw [if_pos hkey, if_pos hkey, get?_eq_none_iff.mpr (hkey ▸ hk)]
        rfl
      · rw [if_neg hkey, if_neg hkey]
  rw [ofList, go []]
  exact Option.or_none

/-- A map in the order of its keys is the map of its entries. -/
theorem Sorted.ofList_eq {entries : List (String × α)} (hs : Sorted entries) :
    ofList entries = entries :=
  (sorted_ofList entries).ext hs (get?_ofList hs.nodup_keys)

/-! ## Sorted sets -/

theorem mem_sortedSet {t : String} {texts : List String} : t ∈ sortedSet texts ↔ t ∈ texts := by
  rw [sortedSet, mem_keys_ofList]
  simp [keys]

theorem nodup_sortedSet (texts : List String) : (sortedSet texts).Nodup :=
  (sorted_ofList _).nodup_keys

end CodeAtlas.Keyed
