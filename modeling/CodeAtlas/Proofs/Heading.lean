import CodeAtlas.AllowedRoots
import CodeAtlas.Proofs.Places
import CodeAtlas.Proofs.Scan
/-!
# Where paths head

Whether a path leads anywhere depends on what is there. Where it leads if it does depends on links
alone: a path heads for a place, and what is missing on the way does not matter for that. A name that is
put behind a path goes on from where the path heads, so places of documents can be told from that of
their directory.

Results:
1. `FileSystem.step`: all that one name may do when names are looked up.
2. `heading?_of_resolve`: a path that leads to a place heads there.
3. `HeadsTo.join`, `HeadsTo.placeOf_join`: names behind a path.
4. `headsTo_ofNames`: a path without links heads where its names say.
-/

namespace CodeAtlas

/-! ## Pieces of paths -/

theorem Text.splitOnChars_append_separator {p : Char → Bool} {separator : Char}
    (hseparator : p separator = true) (before after : List Char) :
    splitOnChars p (before ++ separator :: after) = splitOnChars p before ++ splitOnChars p after := by
  induction before with
  | nil => simp [splitOnChars, hseparator]
  | cons c before ih =>
    rw [List.cons_append, splitOnChars, ih, splitOnChars]
    split
    · rfl
    · cases hpieces : splitOnChars p before with
      | nil => exact absurd hpieces (splitOnChars_ne_nil p before)
      | cons first others => rfl

theorem Text.of_mem_splitOnChars {p : Char → Bool} {cs piece : List Char}
    (hpiece : piece ∈ splitOnChars p cs) : ∀ c ∈ piece, p c = false := by
  induction cs generalizing piece with
  | nil =>
    cases List.mem_singleton.mp hpiece
    exact fun _ h => by cases h
  | cons c cs ih =>
    rw [splitOnChars] at hpiece
    split at hpiece
    · rcases List.mem_cons.mp hpiece with rfl | hpiece
      · exact fun _ h => by cases h
      · exact ih hpiece
    · next hc =>
      rw [Bool.not_eq_true] at hc
      cases hpieces : splitOnChars p cs with
      | nil => exact absurd hpieces (splitOnChars_ne_nil p cs)
      | cons first others =>
        rw [hpieces] at hpiece ih
        rcases List.mem_cons.mp hpiece with rfl | hpiece
        · intro c' hc'
          rcases List.mem_cons.mp hc' with rfl | hc'
          · exact hc
          · exact ih List.mem_cons_self c' hc'
        · exact ih (List.mem_cons_of_mem first hpiece)

namespace Path

/-- The pieces of a path between slashes, empty ones left out. -/
def pieces (path : String) : List String := (Text.splitOn (· == '/') path).filter (· != "")

theorem names_eq_filter (path : String) : names path = (pieces path).filter (· != ".") := by
  rw [names, pieces, List.filter_filter]
  congr 1
  funext n
  exact Bool.and_comm _ _

/-- A name that can be that of an entry of a directory. -/
def IsPlain (name : String) : Prop := IsName name ∧ name ≠ "" ∧ name ≠ "." ∧ name ≠ ".."

instance : DecidablePred IsPlain := fun _ => inferInstanceAs (Decidable (_ ∧ _))

variable {base name : String} {names : List String}

theorem pieces_append_slash (before after : String) :
    pieces (before ++ "/" ++ after) = pieces before ++ pieces after := by
  have hchars : (before ++ "/" ++ after).toList = before.toList ++ '/' :: after.toList := by
    rw [String.toList_append, String.toList_append, List.append_assoc]
    rfl
  rw [pieces, Text.splitOn, hchars, Text.splitOnChars_append_separator (by decide), List.map_append,
    List.filter_append]
  rfl

/-- A piece of a path stays where it is, goes up, or is the name of an entry. -/
theorem cases_of_mem_pieces {path : String} (h : name ∈ pieces path) :
    name = "." ∨ name = ".." ∨ IsPlain name := by
  obtain ⟨hmem, hne⟩ := List.mem_filter.mp h
  obtain ⟨chars, hchars, rfl⟩ := List.mem_map.mp hmem
  by_cases hdot : String.ofList chars = "."
  · exact .inl hdot
  · by_cases hdots : String.ofList chars = ".."
    · exact .inr (.inl hdots)
    · refine .inr (.inr ⟨fun hslash => ?_, bne_iff_ne.mp hne, hdot, hdots⟩)
      rw [String.toList_ofList] at hslash
      exact absurd (Text.of_mem_splitOnChars hchars _ hslash) (by decide)

theorem pieces_of_isName (hname : IsName name) (hne : name ≠ "") : pieces name = [name] := by
  have hchars : ∀ c ∈ name.toList, (c == '/') = false := fun c hc =>
    beq_eq_false_iff_ne.mpr fun heq => hname (heq ▸ hc)
  rw [pieces, Text.splitOn, Text.splitOnChars_of_none hchars, List.map_singleton,
    String.ofList_toList]
  exact List.filter_cons_of_pos (p := (· != "")) (bne_iff_ne.mpr hne)

theorem isAbsolute_of_isName (hname : IsName name) : isAbsolute name = false := by
  rw [isAbsolute, Text.startsWith]
  cases hchars : name.toList with
  | nil => rfl
  | cons c cs =>
    have hne : ('/' == c) = false := beq_eq_false_iff_ne.mpr fun heq => hname (by
      rw [hchars, heq]
      exact List.mem_cons_self)
    change ('/' == c && true) = false
    rw [hne]
    rfl

theorem endsWith_slash_append (path : String) (hname : IsName name) (hne : name ≠ "") :
    Text.endsWith "/" (path ++ name) = false := by
  refine Bool.eq_false_iff.mpr fun hends => hname ?_
  obtain ⟨before, hbefore⟩ := List.isSuffixOf_iff_suffix.mp hends
  rw [String.toList_append] at hbefore
  have hlast := congrArg List.getLast? hbefore
  have hchars : name.toList ≠ [] := fun hnil => hne (String.toList_eq_nil_iff.mp hnil)
  rw [List.getLast?_append_of_ne_nil _ hchars, show ("/" : String).toList = ['/'] from rfl,
    List.getLast?_concat] at hlast
  exact List.mem_of_getLast? hlast.symm

/-- A path that ends with a slash is one with the slash put behind. -/
theorem eq_append_slash {path : String} (h : Text.endsWith "/" path = true) :
    ∃ before, path = before ++ "/" := by
  obtain ⟨before, hbefore⟩ := List.isSuffixOf_iff_suffix.mp h
  refine ⟨.ofList before, String.toList_inj.mp ?_⟩
  rw [String.toList_append, String.toList_ofList, hbefore]

/-- A path with a name behind it: itself, possibly with a slash, and the name. -/
theorem join_cases (base : String) (hname : IsName name) :
    (∃ before, (before = base ∨ base = before ++ "/") ∧ join base name = before ++ "/" ++ name) ∨
      base = "" ∧ join base name = name := by
  rw [join, isAbsolute_of_isName hname]
  split
  · contradiction
  · split
    · next hbase =>
      rcases (Bool.or_eq_true _ _).mp hbase with hempty | hends
      · rw [beq_iff_eq.mp hempty, String.empty_append]
        exact .inr ⟨rfl, rfl⟩
      · obtain ⟨before, rfl⟩ := eq_append_slash hends
        exact .inl ⟨before, .inr rfl, rfl⟩
    · exact .inl ⟨base, .inl rfl, rfl⟩

theorem pieces_join (base : String) (hname : IsPlain name) :
    pieces (join base name) = pieces base ++ [name] := by
  obtain ⟨hslash, hne, _⟩ := hname
  rcases join_cases base hslash with ⟨before, rfl | rfl, heq⟩ | ⟨rfl, heq⟩
  · rw [heq, pieces_append_slash, pieces_of_isName hslash hne]
  · have hbefore : pieces (before ++ "/") = pieces before := by
      rw [← String.append_empty (s := before ++ "/"), pieces_append_slash]
      exact List.append_nil _
    rw [heq, pieces_append_slash, pieces_of_isName hslash hne, hbefore]
  · rw [heq, pieces_of_isName hslash hne]
    rfl

theorem endsWith_slash_join (base : String) (hname : IsPlain name) :
    Text.endsWith "/" (join base name) = false := by
  rcases join_cases base hname.1 with ⟨before, _, heq⟩ | ⟨_, heq⟩
  · rw [heq]
    exact endsWith_slash_append _ hname.1 hname.2.1
  · rw [heq, ← String.empty_append (s := name)]
    exact endsWith_slash_append _ hname.1 hname.2.1

theorem isAbsolute_append {before after : String} (h : before ≠ "") :
    isAbsolute (before ++ after) = isAbsolute before := by
  rw [isAbsolute, isAbsolute, Text.startsWith, Text.startsWith, String.toList_append]
  cases hchars : before.toList with
  | nil => exact absurd (String.toList_eq_nil_iff.mp hchars) h
  | cons c cs => rfl

theorem isAbsolute_join (base : String) (hname : IsPlain name) :
    isAbsolute (join base name) = isAbsolute base := by
  rw [join, isAbsolute_of_isName hname.1]
  by_cases hbase : base = ""
  · subst hbase
    exact isAbsolute_of_isName hname.1
  · split
    · contradiction
    · split
      · exact isAbsolute_append hbase
      · rw [String.append_assoc]
        exact isAbsolute_append hbase

theorem pieces_ofNames (hnames : ∀ n ∈ names, IsPlain n) : pieces (ofNames names) = names := by
  have hpieces : pieces ("/".intercalate names) = names := by
    cases names with
    | nil => rfl
    | cons name rest =>
      rw [pieces, Text.splitOn_intercalate (List.cons_ne_nil _ _) fun n hn => (hnames n hn).1]
      exact List.filter_eq_self.mpr fun n hn => bne_iff_ne.mpr (hnames n hn).2.1
  have hslash := pieces_append_slash "" ("/".intercalate names)
  rw [hpieces] at hslash
  exact hslash

theorem isAbsolute_ofNames (names : List String) : isAbsolute (ofNames names) = true := by
  rw [ofNames, isAbsolute_append (by decide)]
  rfl

end Path

namespace FileSystem

/-! ## Looking up -/

/-- What a name leads to from a place, whatever names are behind it and wherever links lead. -/
inductive Step (fs : FileSystem) (place : List String) (name : String) : Prop
  | here (hname : name = ".")
      (h : ∀ follow rest, fs.lookUp follow place (name :: rest) = fs.lookUp follow place rest)
  | up (hname : name = "..") (h : ∀ follow rest,
      fs.lookUp follow place (name :: rest) = fs.lookUp follow place.dropLast rest)
  | refused (e : DiskError) (h : ∀ follow rest, fs.lookUp follow place (name :: rest) = .error e)
  | down (hdot : name ≠ ".") (hdots : name ≠ "..") (hdir : fs.holds? (place ++ [name]) = some .dir)
      (h : ∀ follow rest,
        fs.lookUp follow place (name :: rest) = fs.lookUp follow (place ++ [name]) rest)
  | file (hdot : name ≠ ".") (hdots : name ≠ "..") {content : ByteArray} {modified : Timestamp}
      (hfile : fs.holds? (place ++ [name]) = some (.file content modified))
      (h : ∀ follow rest, fs.lookUp follow place (name :: rest) =
        if rest.isEmpty then .ok (place ++ [name]) else .error .notADirectory)
  | link (hdot : name ≠ ".") (hdots : name ≠ "..") {target : String}
      (hlink : fs.holds? (place ++ [name]) = some (.link target))
      (h : ∀ follow rest, fs.lookUp follow place (name :: rest) =
        follow (if Path.isAbsolute target then [] else place) (steps target ++ rest))

/-- Looking up goes by what is at places. -/
theorem lookUp_cons {fs : FileSystem}
    (follow : List String → List String → Except DiskError (List String))
    (place rest : List String) (name : String) :
    fs.lookUp follow place (name :: rest) =
      if name == "." then fs.lookUp follow place rest
      else if name == ".." then fs.lookUp follow place.dropLast rest
      else if name.utf8ByteSize > maxName then .error .nameTooLong
      else match fs.holds? (place ++ [name]) with
        | none => .error .notFound
        | some .dir => fs.lookUp follow (place ++ [name]) rest
        | some (.file _ _) => if rest.isEmpty then .ok (place ++ [name]) else .error .notADirectory
        | some (.link target) =>
          if target == "" then .error .notFound
          else follow (if Path.isAbsolute target then [] else place) (steps target ++ rest) := by
  rw [lookUp, holds?]
  cases fs.at? (place ++ [name]) with
  | none => rfl
  | some node => cases node <;> rfl

/-- Names are looked up step by step. -/
theorem step (fs : FileSystem) (place : List String) (name : String) : fs.Step place name := by
  by_cases hdot : name = "."
  · exact .here hdot fun follow rest => by rw [lookUp_cons, if_pos (beq_iff_eq.mpr hdot)]
  by_cases hdots : name = ".."
  · refine .up hdots fun follow rest => ?_
    rw [lookUp_cons, if_neg (by simpa using hdot), if_pos (beq_iff_eq.mpr hdots)]
  by_cases hlong : name.utf8ByteSize > maxName
  · refine .refused .nameTooLong fun follow rest => ?_
    rw [lookUp_cons, if_neg (by simpa using hdot), if_neg (by simpa using hdots), if_pos hlong]
  have hgoes := fun follow rest => @lookUp_cons fs follow place rest name
  simp only [beq_iff_eq, hdot, hdots, hlong, if_false] at hgoes
  cases hthere : fs.holds? (place ++ [name]) with
  | none => exact .refused .notFound fun follow rest => by rw [hgoes, hthere]
  | some node =>
    cases node with
    | dir => exact .down hdot hdots hthere fun follow rest => by rw [hgoes, hthere]
    | file => exact .file hdot hdots hthere fun follow rest => by rw [hgoes, hthere]
    | link target =>
      by_cases hempty : target = ""
      · refine .refused .notFound fun follow rest => ?_
        rw [hgoes, hthere]
        exact if_pos hempty
      · refine .link hdot hdots hthere fun follow rest => ?_
        rw [hgoes, hthere]
        exact if_neg hempty

/-- What looking names up keeps of following links holds whatever links may be followed. -/
theorem lookUpWithin_induction {fs : FileSystem}
    {P : (List String → List String → Except DiskError (List String)) → Prop}
    (hrefused : P fun _ _ => .error .tooManyLinks)
    (hstep : ∀ follow, P follow → P (fs.lookUp follow)) (n : Nat) : P (fs.lookUpWithin n) := by
  induction n with
  | zero => exact hstep _ hrefused
  | succ n ih => exact hstep _ ih

/-! ## Following links -/

/-- Where names lead if nothing is missing on the way: only links are asked for. -/
def heading (links : List String → Option String)
    (follow : List String → List String → Option (List String)) :
    List String → List String → Option (List String)
  | place, [] => some place
  | place, name :: rest =>
    if name = "." then heading links follow place rest
    else if name = ".." then heading links follow place.dropLast rest
    else match links (place ++ [name]) with
      | none => heading links follow (place ++ [name]) rest
      | some target => follow (if Path.isAbsolute target then [] else place) (steps target ++ rest)

/-- Where names lead if at most so many links are followed. -/
def headingWithin (links : List String → Option String) :
    Nat → List String → List String → Option (List String)
  | 0 => heading links fun _ _ => none
  | n + 1 => heading links (headingWithin links n)

section

variable {links : List String → Option String}
  {follow : List String → List String → Option (List String)} {place p q : List String}

theorem heading_dot (rest : List String) :
    heading links follow place ("." :: rest) = heading links follow place rest := by
  rw [heading, if_pos rfl]

theorem heading_plain {name : String} (hname : Path.IsPlain name)
    (hlink : links (place ++ [name]) = none) (rest : List String) :
    heading links follow place (name :: rest) = heading links follow (place ++ [name]) rest := by
  rw [heading, if_neg hname.2.2.1, if_neg hname.2.2.2, hlink]

/-- A name leads to another place, or to names that are followed from one, whatever is behind it. -/
theorem heading_step (links : List String → Option String) (place : List String) (name : String) :
    (∃ next, ∀ follow rest,
      heading links follow place (name :: rest) = heading links follow next rest) ∨
    ∃ next names, ∀ follow rest,
      heading links follow place (name :: rest) = follow next (names ++ rest) := by
  by_cases hdot : name = "."
  · exact .inl ⟨place, fun follow rest => by rw [heading, if_pos hdot]⟩
  by_cases hdots : name = ".."
  · exact .inl ⟨place.dropLast, fun follow rest => by rw [heading, if_neg hdot, if_pos hdots]⟩
  cases hlink : links (place ++ [name]) with
  | none =>
    exact .inl ⟨place ++ [name], fun follow rest => by
      rw [heading, if_neg hdot, if_neg hdots, hlink]⟩
  | some target =>
    exact .inr ⟨_, steps target, fun follow rest => by
      rw [heading, if_neg hdot, if_neg hdots, hlink]⟩

/-- What heading for names keeps of following links holds whatever links may be followed. -/
theorem headingWithin_induction
    {P : (List String → List String → Option (List String)) → Prop} (hnone : P fun _ _ => none)
    (hstep : ∀ follow, P follow → P (heading links follow)) (n : Nat) :
    P (headingWithin links n) := by
  induction n with
  | zero => exact hstep _ hnone
  | succ n ih => exact hstep _ ih

theorem headingWithin_append_dot (n : Nat) (names : List String) :
    headingWithin links n place (names ++ ["."]) = headingWithin links n place names := by
  refine headingWithin_induction (P := fun follow => ∀ place names,
    follow place (names ++ ["."]) = follow place names) (fun _ _ => rfl)
    (fun follow hfollow place names => ?_) n place names
  induction names generalizing place with
  | nil => exact heading_dot []
  | cons name rest ih =>
    rcases heading_step links place name with ⟨next, h⟩ | ⟨next, names, h⟩
    · rw [List.cons_append, h, h]
      exact ih next
    · rw [List.cons_append, h, h, ← List.append_assoc]
      exact hfollow next _

/-- Names that lead on from where others lead, whatever links have been followed. -/
theorem headingWithin_append {n : Nat} {first later : List String}
    (h : headingWithin links n place first = some p)
    (hlater : ∀ follow, heading links follow p later = some q) :
    headingWithin links n place (first ++ later) = some q := by
  refine headingWithin_induction (P := fun follow => ∀ place first, follow place first = some p →
    follow place (first ++ later) = some q) (fun _ _ => nofun)
    (fun follow hfollow place first => ?_) n place first h
  induction first generalizing place with
  | nil =>
    intro h
    cases h
    exact hlater follow
  | cons name rest ih =>
    rcases heading_step links place name with ⟨next, h⟩ | ⟨next, names, h⟩
    · rw [List.cons_append, h, h]
      exact ih next
    · rw [List.cons_append, h, h, ← List.append_assoc]
      exact hfollow next _

/-- What leads anywhere leads there by way of where its first names lead. -/
theorem headingWithin_of_append {n : Nat} {first later : List String}
    (h : headingWithin links n place (first ++ later) = some q) :
    ∃ p, headingWithin links n place first = some p := by
  refine headingWithin_induction (P := fun follow => ∀ place first,
    follow place (first ++ later) = some q → ∃ p, follow place first = some p) (fun _ _ => nofun)
    (fun follow hfollow place first => ?_) n place first h
  induction first generalizing place with
  | nil => exact fun _ => ⟨place, rfl⟩
  | cons name rest ih =>
    rcases heading_step links place name with ⟨next, h⟩ | ⟨next, names, h⟩
    · rw [List.cons_append, h, h]
      exact ih next
    · rw [List.cons_append, h, h, ← List.append_assoc]
      exact hfollow next _

end

variable {fs fs' : FileSystem} {base name path : String} {place p q : List String}

/-- What names lead to is where they head. -/
theorem headingWithin_of_lookUpWithin {n : Nat} {names : List String}
    (h : fs.lookUpWithin n place names = .ok q) : headingWithin fs.link? n place names = some q := by
  have hstep : ∀ (follow : List String → List String → Except DiskError (List String))
      (follow' : List String → List String → Option (List String)),
      (∀ p s, follow p s = .ok q → follow' p s = some q) →
      ∀ place names, fs.lookUp follow place names = .ok q →
        heading fs.link? follow' place names = some q := by
    intro follow follow' hfollow place names
    induction names generalizing place with
    | nil =>
      intro h
      cases h
      rfl
    | cons name rest ih =>
      cases fs.step place name with
      | here hname hgoes =>
        rw [hgoes, heading, if_pos hname]
        exact ih _
      | up hname hgoes =>
        rw [hgoes, heading, if_neg (by rw [hname]; decide), if_pos hname]
        exact ih _
      | refused e hgoes =>
        rw [hgoes]
        rintro ⟨⟩
      | down hdot hdots hdir hgoes =>
        rw [hgoes, heading, if_neg hdot, if_neg hdots, link?, hdir]
        exact ih _
      | file hdot hdots hfile hgoes =>
        rw [hgoes, heading, if_neg hdot, if_neg hdots, link?, hfile]
        cases rest with
        | nil => exact fun h => congrArg some (Except.ok.inj h)
        | cons next rest => rintro ⟨⟩
      | link hdot hdots hlink hgoes =>
        rw [hgoes, heading, if_neg hdot, if_neg hdots, link?, hlink]
        exact hfollow _ _
  induction n generalizing place names with
  | zero => exact hstep _ _ (fun _ _ h => by cases h) _ _ h
  | succ n ih => exact hstep _ _ (fun _ _ h => ih h) _ _ h

/-- Where a path heads. -/
def heading? (fs : FileSystem) (path : String) : Option (List String) :=
  headingWithin fs.link? maxLinks (fs.start path) (Path.pieces path)

/-- A path heads for a place if it heads anywhere: there may be too many links on the way. -/
def HeadsTo (fs : FileSystem) (path : String) (place : List String) : Prop :=
  ∀ q, fs.heading? path = some q → q = place

theorem HeadsTo.congr (hlinks : fs'.link? = fs.link?) (hcurrent : fs'.current = fs.current)
    (h : fs.HeadsTo path place) : fs'.HeadsTo path place := by
  intro q hq
  rw [heading?, start, hlinks, hcurrent] at hq
  exact h q hq

theorem heading?_of_resolve (h : fs.resolve path = .ok q) : fs.heading? path = some q := by
  obtain ⟨_, _, h⟩ := bind_eq_ok h
  have hq := headingWithin_of_lookUpWithin h
  rw [steps] at hq
  split at hq
  · rwa [headingWithin_append_dot] at hq
  · rwa [List.append_nil] at hq

theorem steps_join (base : String) (hname : Path.IsPlain name) :
    steps (Path.join base name) = Path.pieces base ++ [name] := by
  rw [← Path.pieces_join base hname, steps, Path.endsWith_slash_join base hname]
  exact List.append_nil _

theorem start_join (fs : FileSystem) (base : String) (hname : Path.IsPlain name) :
    fs.start (Path.join base name) = fs.start base := by
  rw [start, start, Path.isAbsolute_join base hname]

/-- A path with a name behind it heads for the entry of this name, unless that is a link. -/
theorem HeadsTo.join (h : fs.HeadsTo base p) (hname : Path.IsPlain name)
    (hlink : fs.link? (p ++ [name]) = none) : fs.HeadsTo (Path.join base name) (p ++ [name]) := by
  intro q hq
  rw [heading?, start_join fs base hname, Path.pieces_join base hname] at hq
  obtain ⟨p', hp'⟩ := headingWithin_of_append hq
  cases h p' hp'
  have hgoes := headingWithin_append hp' (q := p ++ [name]) fun follow => heading_plain hname hlink []
  exact Option.some.inj (hq.symm.trans hgoes)

/-- The place of an entry that may not exist yet. -/
theorem HeadsTo.placeOf_join (h : fs.HeadsTo base p) (hname : Path.IsPlain name)
    (hplace : fs.placeOf (Path.join base name) = .ok place) : place = p ++ [name] := by
  obtain ⟨front, last, parent, hsteps, _, _, hparent, rfl⟩ := placeOf_eq_ok hplace
  rw [steps_join base hname] at hsteps
  obtain ⟨rfl, hlast⟩ := List.append_inj' hsteps rfl
  cases hlast
  have hheads := headingWithin_of_lookUpWithin hparent
  rw [start_join fs base hname, headingWithin_append_dot] at hheads
  rw [h parent hheads]

/-- What is written below a directory is written at the place of its name, if no link is there. -/
theorem HeadsTo.writePlace_join {n : Nat} (h : fs.HeadsTo base p) (hname : Path.IsPlain name)
    (hlink : fs.link? (p ++ [name]) = none)
    (hplace : fs.writePlace n (Path.join base name) = .ok place) : place = p ++ [name] := by
  obtain ⟨own, hown, hcases⟩ := placeOf_of_writePlace hplace
  cases h.placeOf_join hname hown
  rcases hcases with rfl | ⟨target, htarget⟩
  · rfl
  · cases hlink.symm.trans htarget

/-- A path without links heads where its names say. -/
theorem headsTo_ofNames {names : List String} (hnames : ∀ n ∈ names, Path.IsPlain n)
    (hlinks : ∀ front, front <+: names → fs.link? front = none) :
    fs.HeadsTo (Path.ofNames names) names := by
  have hgoes : ∀ follow, heading fs.link? follow [] names = some names := by
    intro follow
    have hfrom : ∀ done rest, done ++ rest = names →
        heading fs.link? follow done rest = some names := by
      intro done rest
      induction rest generalizing done with
      | nil =>
        intro h
        rw [heading, ← h, List.append_nil]
      | cons name rest ih =>
        intro h
        have hsplit : (done ++ [name]) ++ rest = names := by
          rw [List.append_assoc, List.singleton_append, h]
        rw [heading_plain (hnames name (h ▸ by simp)) (hlinks _ ⟨rest, hsplit⟩)]
        exact ih _ hsplit
    exact hfrom [] names rfl
  intro q hq
  rw [heading?, start, Path.isAbsolute_ofNames, Path.pieces_ofNames hnames] at hq
  exact Option.some.inj (hq.symm.trans (hgoes _))

/-! ## Canonical paths -/

theorem cases_of_mem_steps (h : name ∈ steps path) :
    name = "." ∨ name = ".." ∨ Path.IsPlain name := by
  rcases List.mem_append.mp h with h | h
  · exact Path.cases_of_mem_pieces h
  · split at h
    · exact .inl (List.mem_singleton.mp h)
    · cases h

/-- Names that lead to a place from one without odd names lead to such a place. -/
theorem plain_of_lookUpWithin {n : Nat} {names : List String}
    (h : fs.lookUpWithin n place names = .ok q) (hplace : ∀ m ∈ place, Path.IsPlain m)
    (hnames : ∀ m ∈ names, m = "." ∨ m = ".." ∨ Path.IsPlain m) : ∀ m ∈ q, Path.IsPlain m := by
  refine lookUpWithin_induction (P := fun look => ∀ place names, look place names = .ok q →
    (∀ m ∈ place, Path.IsPlain m) → (∀ m ∈ names, m = "." ∨ m = ".." ∨ Path.IsPlain m) →
      ∀ m ∈ q, Path.IsPlain m) (fun _ _ => nofun) (fun follow hfollow place names => ?_) n place
    names h hplace hnames
  induction names generalizing place with
  | nil =>
    intro h hplace _
    cases h
    exact hplace
  | cons name rest ih =>
    intro h hplace hnames
    have hrest := fun m hm => hnames m (List.mem_cons_of_mem name hm)
    -- a name that is looked up among entries is a plain one
    have hnext : name ≠ "." → name ≠ ".." → ∀ m ∈ place ++ [name], Path.IsPlain m := by
      intro hdot hdots m hm
      rcases List.mem_append.mp hm with hm | hm
      · exact hplace m hm
      · rw [List.mem_singleton.mp hm]
        exact ((hnames name List.mem_cons_self).resolve_left hdot).resolve_left hdots
    cases fs.step place name with
    | here _ hgoes => exact ih _ (hgoes follow rest ▸ h) hplace hrest
    | up _ hgoes =>
      exact ih _ (hgoes follow rest ▸ h) (fun m hm => hplace m (List.dropLast_subset place hm)) hrest
    | refused e hgoes => cases (hgoes follow rest).symm.trans h
    | down hdot hdots _ hgoes => exact ih _ (hgoes follow rest ▸ h) (hnext hdot hdots) hrest
    | file hdot hdots _ hgoes =>
      rw [hgoes] at h
      split at h
      · cases h
        exact hnext hdot hdots
      · cases h
    | link _ _ _ hgoes =>
      refine hfollow _ _ (hgoes follow rest ▸ h) ?_ fun m hm => ?_
      · split
        · exact fun _ => nofun
        · exact hplace
      · rcases List.mem_append.mp hm with hm | hm
        · exact cases_of_mem_steps hm
        · exact hrest m hm

/-- The path of a directory without links heads for it. -/
theorem headsTo_of_isDir (hplain : ∀ m ∈ place, Path.IsPlain m)
    (hdir : fs.holds? place = some .dir) : fs.HeadsTo (Path.ofNames place) place := by
  refine headsTo_ofNames hplain fun front hfront => ?_
  have hthere : fs.holds? front = some .dir := by
    by_cases heq : front = place
    · rwa [heq]
    · exact holds?_above (by rw [hdir]; exact fun h => by cases h) hfront heq
  rw [link?, hthere]

end FileSystem

namespace AllowedRoots

variable {fs : FileSystem} {roots : List String} {path root : String}

/-- What may be indexed is the place of a directory. -/
theorem validate_eq_ok (h : validate fs roots path = .ok root) : ∃ place,
    root = Path.ofNames place ∧ fs.resolve path = .ok place ∧ fs.holds? place = some .dir := by
  rw [validate] at h
  split at h
  · next place hcheck =>
    cases h
    rw [check] at hcheck
    split at hcheck
    · cases hcheck
    · split at hcheck
      · cases hcheck
      · split at hcheck
        · cases hcheck
        · next found hresolve =>
          split at hcheck
          · cases hcheck
          · next hdir =>
            split at hcheck
            · cases hcheck
            · cases hcheck
              refine ⟨place, rfl, hresolve, ?_⟩
              rw [FileSystem.holds?]
              cases hnode : fs.at? place with
              | none => simp [hnode] at hdir
              | some node =>
                cases node with
                | dir es => rfl
                | _ => simp [hnode, DiskNode.isDir] at hdir
  · cases h

/-- The path of a root that may be indexed heads for where its names say. -/
theorem headsTo_of_validate (hcurrent : ∀ m ∈ fs.current, Path.IsPlain m)
    (h : validate fs roots path = .ok root) : (∀ m ∈ Path.pieces root, Path.IsPlain m) ∧
      root = Path.ofNames (Path.pieces root) ∧ fs.HeadsTo root (Path.pieces root) := by
  obtain ⟨place, rfl, hresolve, hdir⟩ := validate_eq_ok h
  obtain ⟨_, _, hlookUp⟩ := FileSystem.bind_eq_ok hresolve
  have hplain : ∀ m ∈ place, Path.IsPlain m := by
    refine FileSystem.plain_of_lookUpWithin hlookUp ?_ fun m => FileSystem.cases_of_mem_steps
    rw [FileSystem.start]
    split
    · exact fun _ h => by cases h
    · exact hcurrent
  rw [Path.pieces_ofNames hplain]
  exact ⟨hplain, rfl, FileSystem.headsTo_of_isDir hplain hdir⟩

end AllowedRoots

end CodeAtlas
