import CodeAtlas.Exclusion
import CodeAtlas.Proofs.Heading
/-!
# What exclude patterns match

A pattern without special characters matches itself and nothing else, and with `/**` behind it what
begins with it and a slash. So an exclude pattern `dir/**` leaves out what lies below `dir`, and if `dir`
is a single name, what lies below a directory of this name anywhere: paths are compared name by name,
so names that begin alike are not mixed up.

Results:
1. `covers_iff`: a base covers a path through leading names of it, or through one name.
2. `ofString?_literal`, `ofString?_below`: how patterns without special characters are read.
3. `accepts_literal`, `accepts_below`: what they match.
4. `excludes_ofStrings_iff`: a list of patterns excludes what one of the valid ones does.
5. `excludes_below_iff`: what a pattern `dir/**` excludes.
-/

namespace CodeAtlas

/-! ## Names along paths -/

/-- A name that a path can have between its slashes. -/
def IsSegment (name : String) : Prop := IsName name ∧ name ≠ ""

instance : DecidablePred IsSegment := fun _ => inferInstanceAs (Decidable (_ ∧ _))

namespace ExcludePattern

theorem segments_append_slash (before after : String) :
    segments (before ++ "/" ++ after) = segments before ++ segments after :=
  Path.pieces_append_slash before after

theorem segments_intercalate {names : List String} (hnames : ∀ n ∈ names, IsSegment n) :
    segments ("/".intercalate names) = names := by
  cases names with
  | nil => rfl
  | cons name rest =>
    rw [segments, Text.splitOn_intercalate (List.cons_ne_nil name rest) fun n hn => (hnames n hn).1]
    exact List.filter_eq_self.mpr fun n hn => bne_iff_ne.mpr (hnames n hn).2

theorem intercalate_inj {names names' : List String} (hnames : ∀ n ∈ names, IsSegment n)
    (hnames' : ∀ n ∈ names', IsSegment n)
    (h : "/".intercalate names = "/".intercalate names') : names = names' := by
  rw [← segments_intercalate hnames, h, segments_intercalate hnames']

/-- What is asked of a base: it matches the path of some leading names, or one of the names. -/
theorem covers_iff {base : Glob} {path : String} : covers base path = true ↔
    (∃ front, front ≠ [] ∧ front <+: segments path ∧ base.accepts ("/".intercalate front) = true) ∨
      ∃ name ∈ segments path, base.accepts name = true := by
  simp only [covers, leadingPaths, List.any_eq_true, List.mem_mapIdx, Bool.or_eq_true]
  constructor
  · rintro ⟨_, ⟨i, hi, rfl⟩, hmatch⟩
    refine hmatch.imp (fun h => ⟨_, ?_, List.take_prefix (i + 1) _, h⟩)
      fun h => ⟨_, List.getElem_mem hi, h⟩
    exact List.ne_nil_of_length_pos (by rw [List.length_take]; omega)
  · rintro (⟨front, hne, hfront, hmatch⟩ | ⟨name, hname, hmatch⟩)
    · have hlength := List.length_pos_iff.mpr hne
      have hfits := hfront.length_le
      refine ⟨_, ⟨front.length - 1, by omega, rfl⟩, .inl ?_⟩
      rwa [Nat.sub_add_cancel hlength, ← List.prefix_iff_eq_take.mp hfront]
    · obtain ⟨i, hi, rfl⟩ := List.mem_iff_getElem.mp hname
      exact ⟨_, ⟨i, hi, rfl⟩, .inr hmatch⟩

end ExcludePattern

/-! ## Patterns without special characters -/

namespace Glob

/-- The characters that stand for nothing but themselves in patterns. -/
def IsLiteral (c : Char) : Prop := c ≠ '*' ∧ c ≠ '?' ∧ c ≠ '[' ∧ c ≠ ']'

instance : DecidablePred IsLiteral := fun _ => inferInstanceAs (Decidable (_ ∧ _))

theorem readParts_literal {c : Char} (hc : IsLiteral c) (fuel : Nat) (fresh : Bool)
    (rest : List Char) (acc : List GlobPart) :
    readParts (fuel + 1) fresh (c :: rest) acc =
      readParts fuel (c == '/') rest (.char c :: acc) := by
  obtain ⟨hstar, hmark, hopen, _⟩ := hc
  rw [readParts]
  · exact hmark
  · exact fun rest h => absurd h hstar
  · exact fun rest h => absurd h hstar
  · exact hstar
  · exact hopen

/-- Characters that stand for themselves are read one by one. -/
theorem readParts_literals {cs : List Char} (hcs : ∀ c ∈ cs, IsLiteral c) (fuel : Nat)
    (fresh : Bool) (rest : List Char) (acc : List GlobPart) :
    ∃ fresh', readParts (cs.length + fuel) fresh (cs ++ rest) acc =
      readParts fuel fresh' rest ((cs.map .char).reverse ++ acc) := by
  induction cs generalizing fresh acc with
  | nil => exact ⟨fresh, by rw [List.length_nil, Nat.zero_add]; rfl⟩
  | cons c cs ih =>
    obtain ⟨fresh', h⟩ := ih (fun c' hc' => hcs c' (List.mem_cons_of_mem c hc')) (c == '/')
      (.char c :: acc)
    refine ⟨fresh', ?_⟩
    rw [List.length_cons, Nat.add_right_comm, List.cons_append,
      readParts_literal (hcs c List.mem_cons_self), h, List.map_cons, List.reverse_cons,
      List.append_assoc, List.singleton_append]

theorem ofString?_literal {s : String} (hs : ∀ c ∈ s.toList, IsLiteral c) :
    ofString? s = some ⟨s.toList.map .char⟩ := by
  obtain ⟨fresh, h⟩ := readParts_literals hs 1 true [] []
  rw [List.append_nil, List.append_nil, String.length_toList] at h
  rw [ofString?, h, readParts, List.reverse_reverse]
  rfl

/-- Behind a slash `**` stands for whole names. -/
theorem ofString?_below {s : String} (hs : ∀ c ∈ s.toList, IsLiteral c) :
    ofString? (s ++ "/**") = some ⟨s.toList.map .char ++ [.char '/', .components]⟩ := by
  obtain ⟨fresh, h⟩ := readParts_literals hs 4 true "/**".toList []
  have hlength : (s ++ "/**").length + 1 = s.toList.length + 4 := by
    rw [String.length_append, String.length_toList]
    rfl
  have hlast : readParts 4 fresh "/**".toList ((s.toList.map .char).reverse ++ []) =
      some (addComponents (.char '/' :: ((s.toList.map .char).reverse ++ []))).reverse := rfl
  have hadded : addComponents (.char '/' :: ((s.toList.map .char).reverse ++ [])) =
      .components :: .char '/' :: (s.toList.map .char).reverse := by
    rw [List.append_nil]
    rfl
  rw [ofString?, hlength, String.toList_append, h, hlast, hadded]
  simp

theorem literal_intercalate {names : List String} (h : ∀ n ∈ names, ∀ c ∈ n.toList, IsLiteral c) :
    ∀ c ∈ ("/".intercalate names).toList, IsLiteral c := by
  induction names with
  | nil => exact nofun
  | cons name rest ih =>
    have hname := h name List.mem_cons_self
    cases rest with
    | nil => rwa [String.intercalate_singleton]
    | cons next rest =>
      intro c hc
      rw [String.intercalate_cons_cons, String.toList_append, String.toList_append,
        List.append_assoc] at hc
      rcases List.mem_append.mp hc with hc | hc
      · exact hname c hc
      · rcases List.mem_append.mp hc with hc | hc
        · rw [List.mem_singleton.mp hc]
          decide
        · exact ih (fun n hn => h n (List.mem_cons_of_mem name hn)) c hc

theorem matchesParts_char (c : Char) (parts : List GlobPart) (cs : List Char) :
    matchesParts (.char c :: parts) cs = true ↔
      ∃ rest, cs = c :: rest ∧ matchesParts parts rest = true := by
  cases cs with
  | nil => exact ⟨nofun, nofun⟩
  | cons d rest =>
    have hfirst : matchesParts (.char c :: parts) (d :: rest) =
        (fits (.char c) d && matchesParts parts rest) := by
      rw [matchesParts] <;> exact nofun
    rw [hfirst, fits, Bool.and_eq_true, beq_iff_eq]
    constructor
    · rintro ⟨rfl, h⟩
      exact ⟨rest, rfl, h⟩
    · rintro ⟨_, heq, h⟩
      cases heq
      exact ⟨rfl, h⟩

theorem matchesParts_chars (front : List Char) (parts : List GlobPart) (cs : List Char) :
    matchesParts (front.map .char ++ parts) cs = true ↔
      ∃ rest, cs = front ++ rest ∧ matchesParts parts rest = true := by
  induction front generalizing cs with
  | nil => simp
  | cons c front ih =>
    rw [List.map_cons, List.cons_append, matchesParts_char]
    constructor
    · rintro ⟨later, rfl, h⟩
      obtain ⟨rest, hlater, h⟩ := (ih later).mp h
      exact ⟨rest, congrArg (c :: ·) hlater, h⟩
    · rintro ⟨rest, rfl, h⟩
      exact ⟨front ++ rest, rfl, (ih _).mpr ⟨rest, rfl, h⟩⟩

/-- A pattern without special characters matches itself. -/
theorem accepts_literal (s path : String) :
    (⟨s.toList.map .char⟩ : Glob).accepts path = true ↔ path = s := by
  have h := matchesParts_chars s.toList [] path.toList
  rw [List.append_nil] at h
  rw [accepts, h]
  constructor
  · rintro ⟨rest, hpath, hrest⟩
    rw [matchesParts, List.isEmpty_iff] at hrest
    rw [hrest, List.append_nil] at hpath
    exact String.toList_inj.mp hpath
  · rintro rfl
    exact ⟨[], (List.append_nil _).symm, rfl⟩

/-- With `/**` behind it, it matches what begins with it and a slash. -/
theorem accepts_below (s path : String) :
    (⟨s.toList.map .char ++ [.char '/', .components]⟩ : Glob).accepts path = true ↔
      ∃ rest, path = s ++ "/" ++ rest := by
  rw [accepts, matchesParts_chars]
  constructor
  · rintro ⟨_, hpath, hrest⟩
    obtain ⟨rest, rfl, _⟩ := (matchesParts_char '/' _ _).mp hrest
    refine ⟨String.ofList rest, String.toList_inj.mp ?_⟩
    rw [hpath, String.toList_append, String.toList_append, List.append_assoc, String.toList_ofList,
      String.toList_ofList, List.singleton_append]
  · rintro ⟨rest, rfl⟩
    refine ⟨'/' :: rest.toList, ?_, (matchesParts_char '/' _ _).mpr ⟨rest.toList, rfl, ?_⟩⟩
    · rw [String.toList_append, String.toList_append, List.append_assoc]
      rfl
    · rw [matchesParts, Bool.or_eq_true]
      exact .inr rfl

end Glob

/-! ## Patterns of what lies below -/

theorem Text.beforeEnd?_append (s ending : String) : beforeEnd? ending (s ++ ending) = some s := by
  have hends : ending.toList.isSuffixOf (s ++ ending).toList = true := by
    rw [String.toList_append]
    exact List.isSuffixOf_iff_suffix.mpr (List.suffix_append _ _)
  rw [beforeEnd?, if_pos hends, String.length_append, Nat.add_sub_cancel, String.toList_append,
    ← String.length_toList, List.take_left, String.ofList_toList]

namespace ExcludePattern

/-- A directory's path without special characters, with `/**` behind it. -/
theorem ofString?_below {dir : String} (hdir : ∀ c ∈ dir.toList, Glob.IsLiteral c) :
    ofString? (dir ++ "/**") = some ⟨⟨dir.toList.map .char ++ [.char '/', .components]⟩,
      some ⟨dir.toList.map .char⟩⟩ := by
  rw [ofString?, Glob.ofString?_below hdir, Text.beforeEnd?_append, Option.bind_some,
    Glob.ofString?_literal hdir]
  rfl

variable {base names : List String}

/-- A name that is the path of several names is one of them. -/
theorem eq_singleton_of_intercalate (hbase : ∀ n ∈ base, IsSegment n) {name : String}
    (hname : IsSegment name) (h : name = "/".intercalate base) : base = [name] := by
  have hsingle : ∀ n ∈ [name], IsSegment n := fun n hn => by rwa [List.mem_singleton.mp hn]
  refine (intercalate_inj hsingle hbase ?_).symm
  rw [String.intercalate_singleton, h]

/-- The path of leading names, and one that is a single name, cover a path. -/
theorem covers_literal_iff (hne : base ≠ []) (hbase : ∀ n ∈ base, IsSegment n)
    (hnames : ∀ n ∈ names, IsSegment n) :
    covers ⟨("/".intercalate base).toList.map .char⟩ ("/".intercalate names) = true ↔
      base <+: names ∨ ∃ name, base = [name] ∧ name ∈ names := by
  rw [covers_iff, segments_intercalate hnames]
  simp only [Glob.accepts_literal]
  refine or_congr ⟨?_, fun h => ⟨base, hne, h, rfl⟩⟩ ⟨?_, ?_⟩
  · rintro ⟨front, _, hfront, h⟩
    rwa [← intercalate_inj (fun n hn => hnames n (hfront.subset hn)) hbase h]
  · rintro ⟨name, hname, h⟩
    exact ⟨name, eq_singleton_of_intercalate hbase (hnames name hname) h, hname⟩
  · rintro ⟨name, rfl, hname⟩
    exact ⟨name, hname, (String.intercalate_singleton ..).symm⟩

/-- What begins with a path and a slash begins with its names. -/
theorem prefix_of_below (hbase : ∀ n ∈ base, IsSegment n) (hnames : ∀ n ∈ names, IsSegment n)
    {rest : String} (h : "/".intercalate names = "/".intercalate base ++ "/" ++ rest) :
    base <+: names := by
  have hsegments := congrArg segments h
  rw [segments_append_slash, segments_intercalate hbase, segments_intercalate hnames] at hsegments
  exact ⟨segments rest, hsegments.symm⟩

theorem excludes_below (hne : base ≠ []) (hbase : ∀ n ∈ base, IsSegment n)
    (hnames : ∀ n ∈ names, IsSegment n) :
    ((⟨⟨("/".intercalate base).toList.map .char ++ [.char '/', .components]⟩,
      some ⟨("/".intercalate base).toList.map .char⟩⟩ : ExcludePattern).excludes
        ("/".intercalate names)) = true ↔
      base <+: names ∨ ∃ name, base = [name] ∧ name ∈ names := by
  rw [excludes, Bool.or_eq_true, Glob.accepts_below, Option.any_some,
    covers_literal_iff hne hbase hnames]
  constructor
  · rintro (⟨rest, hrest⟩ | h)
    · exact .inl (prefix_of_below hbase hnames hrest)
    · exact h
  · exact .inr

end ExcludePattern

namespace ExcludeSet

/-- A text that is a pattern. -/
def IsPattern (text : String) : Prop := (Glob.ofString? text).isSome = true

instance : DecidablePred IsPattern := fun _ => inferInstanceAs (Decidable (_ = true))

/-- Something excludes a path if it is the pattern of one of the texts and does. -/
theorem excludes_ofStrings {texts : List String} {path : String} :
    (ofStrings texts).excludes path = true ↔
      ∃ t ∈ texts, ∃ p, ExcludePattern.ofString? t = some p ∧ p.excludes path = true := by
  simp only [excludes, ofStrings, List.any_eq_true, List.mem_filterMap]
  exact ⟨fun ⟨p, ⟨t, ht, hp⟩, h⟩ => ⟨t, ht, p, hp, h⟩, fun ⟨t, ht, p, hp, h⟩ => ⟨p, ⟨t, ht, hp⟩, h⟩⟩

/-- A list of patterns excludes what one of the valid ones excludes alone. -/
theorem excludes_ofStrings_iff {texts : List String} {path : String} :
    (ofStrings texts).excludes path = true ↔
      ∃ t ∈ texts, IsPattern t ∧ (ofStrings [t]).excludes path = true := by
  rw [excludes_ofStrings]
  constructor
  · rintro ⟨t, ht, p, hp, h⟩
    refine ⟨t, ht, ?_, excludes_ofStrings.mpr ⟨t, List.mem_singleton_self t, p, hp, h⟩⟩
    obtain ⟨full, hfull, _⟩ := Option.map_eq_some_iff.mp hp
    exact Option.isSome_iff_exists.mpr ⟨full, hfull⟩
  · rintro ⟨t, ht, _, h⟩
    obtain ⟨t', ht', p, hp, h⟩ := excludes_ofStrings.mp h
    exact ⟨t, ht, p, List.mem_singleton.mp ht' ▸ hp, h⟩

end ExcludeSet

/-- A pattern of what lies below a directory excludes what has the names of the directory in front, or
has its name anywhere if it is only one. A list excludes what one of its valid patterns excludes, so
whatever it excludes, other lists with these patterns exclude too. -/
theorem excludes_below_iff {base : List String} (hne : base ≠ [])
    (hbase : ∀ n ∈ base, IsSegment n) (hliteral : ∀ n ∈ base, ∀ c ∈ n.toList, Glob.IsLiteral c) :
    (∀ names : List String, (∀ n ∈ names, IsSegment n) →
      ((ExcludeSet.ofStrings ["/".intercalate base ++ "/**"]).excludes ("/".intercalate names) = true ↔
        base <+: names ∨ ∃ name, base = [name] ∧ name ∈ names)) ∧
    (∀ texts path, isExcludedBy texts path = (ExcludeSet.ofStrings texts).excludes path) ∧
    (∀ texts path, (ExcludeSet.ofStrings texts).excludes path = true ↔
      ∃ t ∈ texts, ExcludeSet.IsPattern t ∧ (ExcludeSet.ofStrings [t]).excludes path = true) ∧
    ∀ texts texts' path, (∀ t ∈ texts, ExcludeSet.IsPattern t → t ∈ texts') →
      (ExcludeSet.ofStrings texts).excludes path = true →
        (ExcludeSet.ofStrings texts').excludes path = true := by
  have hdir := Glob.literal_intercalate hliteral
  refine ⟨fun names hnames => ?_, fun texts path => ?_, fun _ _ => ExcludeSet.excludes_ofStrings_iff,
    fun texts texts' path hsub h => ?_⟩
  · rw [← ExcludePattern.excludes_below hne hbase hnames, ExcludeSet.excludes_ofStrings]
    simp [ExcludePattern.ofString?_below hdir]
  · cases texts <;> rfl
  · obtain ⟨t, ht, hvalid, h⟩ := ExcludeSet.excludes_ofStrings_iff.mp h
    exact ExcludeSet.excludes_ofStrings_iff.mpr ⟨t, hsub t ht hvalid, hvalid, h⟩

/-- What lies in `src/gen` is excluded, at any depth, and what lies in `src/general` is not. -/
theorem excludes_below_src : (ExcludeSet.ofStrings ["src/gen/**"]).excludes "src/gen/a/b.py" = true ∧
    ¬ (ExcludeSet.ofStrings ["src/gen/**"]).excludes "src/general/b.py" = true := by
  have hsegments : ∀ n ∈ ["src", "gen"], IsSegment n := by decide +kernel
  have hall : ∀ n ∈ ["src", "gen"], (n.toList.all fun c => decide (Glob.IsLiteral c)) = true := by
    decide +kernel
  have hliteral : ∀ n ∈ ["src", "gen"], ∀ c ∈ n.toList, Glob.IsLiteral c :=
    fun n hn c hc => of_decide_eq_true (List.all_eq_true.mp (hall n hn) c hc)
  have h := excludes_below_iff (List.cons_ne_nil _ _) hsegments hliteral
  have hin := h.1 ["src", "gen", "a", "b.py"] (by decide +kernel)
  have hout := h.1 ["src", "general", "b.py"] (by decide +kernel)
  refine ⟨hin.mpr (.inl (by decide)), fun hexcluded => ?_⟩
  rcases hout.mp hexcluded with hfront | ⟨_, hsingle, _⟩
  · exact absurd hfront (by decide)
  · cases hsingle

end CodeAtlas
