import CodeAtlas.Proofs.Bodies
import CodeAtlas.Proofs.Scopes
import Mathlib.Data.List.Basic
/-!
# Classes and the functions that are given to them

What a class lists as its methods and what the functions of a file tell of their classes come from two
walks through the syntax tree. The languages that have classes with bodies are scopings, whose records
are those of the outlines; in Go a class lists the functions that name it, so that there is nothing to
compare.

Results:
1. `Python.records`, `Script.records`, `Java.records`: the outline of a file records what the walks of
   the scoping come to.
2. `Language.members_sublist_attributed`: in what can be parsed a class lists functions that its body
   holds, except under names under which no function is extracted.
3. `SourceFile.methods_iff_keepsMembers`: so a class lists the functions that are given to it if its
   body holds no other functions than its members, and only then.
-/

namespace CodeAtlas

open Script (Spot)

namespace Scoping

variable {S : Scoping} {K : Spot} {body : Tree}

mutual
/-- The bodies of the classes that are found in a tree. -/
theorem isBlock_of_mem_classes (hbody : K.node.child? .body = some body) (before : List Tree)
    (above : List (Tree × List Tree)) : (t : Tree) → t.BlockBodied S.isClass →
    K ∈ S.classes before above t → body.kind.isBlock = true
  | .node kind role start stop children, .node hlaw hchildren, hK => by
    rw [classes] at hK
    rcases List.mem_append.mp hK with hK | hK
    · split at hK
      · next hclass =>
        cases List.mem_singleton.mp hK
        obtain ⟨hmem, hrole⟩ := Tree.mem_of_child? hbody
        exact hlaw hclass body hmem hrole
      · exact absurd hK List.not_mem_nil
    · exact isBlock_of_mem_classesInAll hbody _ _ children hchildren hK

theorem isBlock_of_mem_classesInAll (hbody : K.node.child? .body = some body) (before : List Tree)
    (above : List (Tree × List Tree)) : (ts : List Tree) → (∀ t ∈ ts, t.BlockBodied S.isClass) →
    K ∈ S.classesInAll before above ts → body.kind.isBlock = true
  | [], _, hK => absurd hK List.not_mem_nil
  | t :: ts, hts, hK => by
    obtain ⟨ht, hts⟩ := List.forall_mem_cons.mp hts
    rw [classesInAll] at hK
    rcases List.mem_append.mp hK with hK | hK
    · exact isBlock_of_mem_classes hbody _ _ t ht hK
    · exact isBlock_of_mem_classesInAll hbody _ _ ts hts hK
end

end Scoping

theorem Option.map_snd_pair {α β : Type} (a : α) (o : Option β) :
    (o.map (a, ·)).map Prod.snd = o := by
  cases o <;> rfl

namespace Python

variable (src : Source)

/-- The function definition that a statement of a class body is, decorated or not. -/
def definition? (statement : Tree) : Option Tree :=
  match statement.kind with
  | .functionDefinition => some statement
  | .decorated => (statement.child? .definition).filter (·.kind == .functionDefinition)
  | _ => none

def members (t : Tree) : List (Tree × String) :=
  t.statements.filterMap fun statement =>
    (definition? statement).bind fun d => (nameOf src d).map (d, ·)

def scoping : Scoping where
  isFunction := (· == .functionDefinition)
  isClass := (· == .classDefinition)
  className K := nameOf src K.node
  memberName s := (nameOf src s.node).filter (· != "")
  members := members src

theorem methodNames_eq (t : Tree) : methodNames src t = (members src t).map Prod.snd := by
  rw [methodNames, members, Tree.statements]
  cases t.child? .body with
  | none => rfl
  | some body =>
    rw [List.map_filterMap]
    refine congrArg (List.filterMap · body.namedChildren) ?_
    funext statement
    rw [Option.map_bind]
    refine congrArg (Option.bind (definition? statement)) (funext fun d => ?_)
    exact (Option.map_snd_pair d (nameOf src d)).symm

/-- No member has an empty name. -/
def NamesPlainly (t : Tree) : Prop := ∀ m ∈ members src t, m.2 ≠ ""

theorem definition?_cases {statement d : Tree} (h : definition? statement = some d) :
    d.kind = .functionDefinition ∧
      (d = statement ∨ statement.kind = .decorated ∧ d ∈ statement.children) := by
  rw [definition?] at h
  split at h
  · next hkind =>
    cases h
    exact ⟨hkind, .inl rfl⟩
  · next hkind =>
    obtain ⟨hchild, hd⟩ := Option.filter_eq_some_iff.mp h
    exact ⟨beq_iff_eq.mp hd, .inr ⟨hkind, (Tree.mem_of_child? hchild).1⟩⟩
  · cases h

theorem isBlock_neither {kind : Kind} (h : kind.isBlock = true) :
    (scoping src).isFunction kind = false ∧ (scoping src).isClass kind = false := by
  cases kind <;> first | exact ⟨rfl, rfl⟩ | cases h

/-- A body holds the definitions that are its statements, decorated or not. -/
theorem mem_held_of_definition? {statement d : Tree} (h : definition? statement = some d)
    (before : List Tree) (above : List (Tree × List Tree)) :
    ∃ s ∈ (scoping src).held before above statement, s.node = d := by
  obtain ⟨hkind, hplace⟩ := definition?_cases h
  have hd : (scoping src).isFunction d.kind = true := beq_iff_eq.mpr hkind
  rcases hplace with rfl | ⟨hdecorated, hmem⟩
  · rw [Scoping.held_of_isFunction hd]
    exact ⟨_, List.mem_singleton_self _, rfl⟩
  · have hfunction : (scoping src).isFunction statement.kind = false := hdecorated ▸ rfl
    have hclass : (scoping src).isClass statement.kind = false := hdecorated ▸ rfl
    rw [Scoping.held_of_neither hfunction hclass]
    obtain ⟨before', hheld⟩ := Scoping.exists_mem_heldInAll hmem hd
    exact ⟨_, hheld, rfl⟩

theorem members_sublist_attributed {K : Spot} (hplain : NamesPlainly src K.node)
    (hbody : ∀ body, K.node.child? .body = some body → body.kind.isBlock = true) :
    ((scoping src).members K.node).Sublist ((scoping src).attributed K) := by
  refine Scoping.members_sublist_attributed (List.filterMap_eq_flatMap_toList _ _)
    (fun body h => isBlock_neither src (hbody body h)) fun t ht before above => ?_
  cases hm : (definition? t).bind fun d => (nameOf src d).map (d, ·) with
  | none => exact List.nil_sublist _
  | some m =>
    have hname : m.2 ≠ "" := hplain m (List.mem_filterMap.mpr ⟨t, ht, hm⟩)
    obtain ⟨d, hd, hm⟩ := Option.bind_eq_some_iff.mp hm
    obtain ⟨name, hnameOf, rfl⟩ := Option.map_eq_some_iff.mp hm
    obtain ⟨s, hs, rfl⟩ := mem_held_of_definition? src hd before above
    refine List.singleton_sublist.mpr (List.mem_filterMap.mpr ⟨s, hs, ?_⟩)
    refine Option.map_eq_some_iff.mpr ⟨name, ?_, rfl⟩
    exact Option.filter_eq_some_iff.mpr ⟨hnameOf, bne_iff_ne.mpr hname⟩

/-- The node around a spot. -/
def around (s : Spot) : Option Tree := s.above.head?.map Prod.fst

/-- The record of a function that the walk comes to. -/
def recordAt (v : Option Spot × Spot) : Option FunctionRecord :=
  functionRecord src (v.1.bind (scoping src).className) (around v.2) v.2.node

def classAt (K : Spot) : Option ClassRecord := classRecord src (around K) K.node

mutual
theorem functionsIn_eq (owner : Option Spot) (before : List Tree)
    (above : List (Tree × List Tree)) : (t : Tree) →
    functionsIn src (owner.bind (scoping src).className) (above.head?.map Prod.fst) t =
      ((scoping src).visits owner before above t).filterMap (recordAt src)
  | .node kind role start stop children => by
    by_cases hfunction : kind = .functionDefinition
    · subst hfunction
      rw [functionsIn, Scoping.visits_of_isFunction rfl, Scoping.filterMap_cons_toList,
        ← functionsInBody_eq none [] _ before above children]
      rfl
    · by_cases hclass : kind = .classDefinition
      · subst hclass
        rw [functionsIn, Scoping.visits_of_isClass rfl rfl,
          ← functionsInBody_eq _ [] _ before above children]
        rfl
      · rw [functionsIn, Scoping.visits_of_neither (beq_eq_false_iff_ne.mpr hfunction)
          (beq_eq_false_iff_ne.mpr hclass)]
        · exact functionsInAll_eq owner [] _ before above children
        · exact hfunction
        · exact hclass
termination_by structural t => t

theorem functionsInBody_eq (owner : Option Spot) (before : List Tree) (p : Tree) (b : List Tree)
    (above : List (Tree × List Tree)) : (ts : List Tree) →
    functionsInBody src (owner.bind (scoping src).className) p ts =
      ((scoping src).visitsInBody owner before ((p, b) :: above) ts).filterMap (recordAt src)
  | [] => rfl
  | t :: ts => by
    rw [functionsInBody, Scoping.visitsInBody]
    split
    · exact functionsIn_eq owner before ((p, b) :: above) t
    · exact functionsInBody_eq owner (t :: before) p b above ts
termination_by structural ts => ts

theorem functionsInAll_eq (owner : Option Spot) (before : List Tree) (p : Tree) (b : List Tree)
    (above : List (Tree × List Tree)) : (ts : List Tree) →
    functionsInAll src (owner.bind (scoping src).className) p ts =
      ((scoping src).visitsInAll owner before ((p, b) :: above) ts).filterMap (recordAt src)
  | [] => rfl
  | t :: ts => by
    rw [functionsInAll, Scoping.visitsInAll, List.filterMap_append]
    congr 1
    · exact functionsIn_eq owner before ((p, b) :: above) t
    · exact functionsInAll_eq owner (t :: before) p b above ts
termination_by structural ts => ts
end

mutual
theorem classesIn_eq (before : List Tree) (above : List (Tree × List Tree)) : (t : Tree) →
    classesIn src (above.head?.map Prod.fst) t =
      ((scoping src).classes before above t).filterMap (classAt src)
  | .node kind role start stop children => by
    rw [classesIn, Scoping.filterMap_classes, ← classesInAll_eq [] _ before above children]
    rfl

theorem classesInAll_eq (before : List Tree) (p : Tree) (b : List Tree)
    (above : List (Tree × List Tree)) : (ts : List Tree) →
    classesInAll src p ts =
      ((scoping src).classesInAll before ((p, b) :: above) ts).filterMap (classAt src)
  | [] => rfl
  | t :: ts => by
    rw [classesInAll, Scoping.classesInAll, List.filterMap_append]
    congr 1
    · exact classesIn_eq before ((p, b) :: above) t
    · exact classesInAll_eq (t :: before) p b above ts
end

/-- A definition with a name has a record. -/
theorem exists_functionRecord (owner : Option String) (outer : Option Tree) {t : Tree}
    {name : String} (hname : nameOf src t = some name) (hne : name ≠ "") :
    ∃ f, functionRecord src owner outer t = some f ∧ f.name = name ∧ f.line = t.startLine src ∧
      f.endLine = t.endLine src ∧ f.isMethod = owner.isSome ∧ f.parentClass = owner := by
  rw [functionRecord, hname]
  split
  · next h => cases h
  · next h => exact absurd (Option.some.inj h) hne
  · next h =>
    cases h
    exact ⟨_, rfl, rfl, rfl, rfl, rfl, rfl⟩

theorem exists_classRecord (outer : Option Tree) {t : Tree} {name : String}
    (hname : nameOf src t = some name) (hne : name ≠ "") :
    ∃ c, classRecord src outer t = some c ∧ c.name = name ∧ c.line = t.startLine src ∧
      c.endLine = t.endLine src := by
  rw [classRecord, hname]
  split
  · next h => cases h
  · next h => exact absurd (Option.some.inj h) hne
  · next h =>
    cases h
    exact ⟨_, rfl, rfl, rfl, rfl⟩

/-- Only a definition with a name has a record. -/
theorem of_functionRecord {owner : Option String} {outer : Option Tree} {t : Tree}
    {f : FunctionRecord} (h : functionRecord src owner outer t = some f) :
    nameOf src t = some f.name ∧ f.name ≠ "" ∧ f.parentClass = owner ∧
      f.parameters = (parameters src t).map Prod.snd := by
  rw [functionRecord] at h
  split at h
  · cases h
  · cases h
  · next hempty hname =>
    cases h
    exact ⟨hname, hempty, rfl, rfl⟩

theorem of_classRecord {outer : Option Tree} {t : Tree} {C : ClassRecord}
    (h : classRecord src outer t = some C) :
    nameOf src t = some C.name ∧ C.name ≠ "" ∧ C.methods = methodNames src t := by
  rw [classRecord] at h
  split at h
  · cases h
  · cases h
  · next hempty hname =>
    cases h
    exact ⟨hname, hempty, rfl⟩

theorem records : (scoping src).Records (recordAt src) (classAt src) where
  member := by
    intro v n h
    obtain ⟨hname, hne⟩ := Option.filter_eq_some_iff.mp h
    obtain ⟨f, hf, hfname, -⟩ := exists_functionRecord src _ _ hname (bne_iff_ne.mp hne)
    exact ⟨f, hf, hfname⟩
  owner := by
    intro v f h
    obtain ⟨hname, hne, hparent, -⟩ := of_functionRecord src h
    have hsome : (scoping src).memberName v.2 = some f.name :=
      Option.filter_eq_some_iff.mpr ⟨hname, bne_iff_ne.mpr hne⟩
    rw [hsome, Option.isSome_some, if_pos rfl, hparent]
  name := fun h => (of_classRecord src h).1
  methods := fun h => (of_classRecord src h).2.2.trans (methodNames_eq src _)
  isSome := by
    intro K K' C h h'
    obtain ⟨C', hC', -⟩ := exists_classRecord src (around K') h' (of_classRecord src h).2.1
    exact Option.isSome_iff_exists.mpr ⟨C', hC'⟩

end Python

/-! ## ECMAScript -/

namespace Script

variable (src : Source)

def isFunction : Kind → Bool
  | .functionDefinition | .generatorDeclaration | .methodDefinition | .arrowFunction
  | .functionExpression => true
  | _ => false

/-- The function that a member of a class body is or holds. -/
def memberAt (member : Tree) : Option (Tree × String) :=
  match member.kind with
  | .methodDefinition => (nameOf src member).map (member, ·)
  | .field => ((member.child? .value).filter (isFunctionValue ·.kind)).bind fun value =>
    (nameOf src member).map (value, ·)
  | _ => none

def members (t : Tree) : List (Tree × String) := t.statements.filterMap (memberAt src)

/-- What a function is known by: its place, its name, and whether it counts for a class. -/
def identity (s : Spot) : Option (Spot × String × Bool) :=
  match s.node.kind with
  | .functionDefinition | .generatorDeclaration => (nameOf src s.node).map (s, ·, false)
  | .methodDefinition => (nameOf src s.node).map (s, ·, true)
  | .arrowFunction | .functionExpression => binding src s
  | _ => none

def scoping : Scoping where
  isFunction := isFunction
  isClass := isClass
  className := className src
  memberName s := (identity src s).bind fun (_, name, counts) => if counts then some name else none
  members := members src

/-- The record of a function that the walk comes to. -/
def recordAt (v : Option Spot × Spot) : Option FunctionRecord :=
  (identity src v.2).map fun (anchor, name, counts) =>
    functionRecord src name (if counts then v.1.bind (className src) else none) anchor v.2.node

theorem methodNames_eq (t : Tree) : methodNames src t = (members src t).map Prod.snd := by
  rw [methodNames, members, Tree.statements]
  cases t.child? .body with
  | none => rfl
  | some body =>
    rw [List.map_filterMap]
    refine congrArg (List.filterMap · body.namedChildren) (funext fun member => ?_)
    rw [memberAt]
    by_cases hmethod : member.kind = .methodDefinition
    · simp only [hmethod, Option.map_snd_pair]
    · by_cases hfield : member.kind = .field
      · simp only [hfield]
        cases member.child? .value with
        | none => rfl
        | some value =>
          by_cases hvalue : isFunctionValue value.kind
          · rw [Option.any_some, if_pos hvalue, Option.filter_some, if_pos hvalue,
              Option.bind_some, Option.map_snd_pair]
          · rw [Option.any_some, if_neg hvalue, Option.filter_some, if_neg hvalue]
            rfl
      · generalize member.kind = kind at hmethod hfield
        cases kind
        case methodDefinition => exact absurd rfl hmethod
        case field => exact absurd rfl hfield
        all_goals rfl

/-- The fields of a class body have names that a function can be known by. -/
def NamesPlainly (t : Tree) : Prop :=
  ∀ field ∈ t.statements, field.kind = .field → ∀ name, field.child? .name = some name →
    name.kind = .identifier ∨ name.kind = .propertyName ∨ name.kind = .privateName

theorem isBlock_neither {kind : Kind} (h : kind.isBlock = true) :
    (scoping src).isFunction kind = false ∧ (scoping src).isClass kind = false := by
  cases kind <;> first | exact ⟨rfl, rfl⟩ | cases h

theorem isFunction_of_value {kind : Kind} (h : isFunctionValue kind = true) :
    isFunction kind = true := by
  cases kind <;> first | rfl | cases h

/-- The function that a field holds is known by the name of the field. -/
theorem memberName_value {field value name : Tree} (hfield : field.kind = .field)
    (hvalue : field.child? .value = some value) (hfunction : isFunctionValue value.kind = true)
    (hname : field.child? .name = some name)
    (hplain : name.kind = .identifier ∨ name.kind = .propertyName ∨ name.kind = .privateName)
    (before before' : List Tree) (above : List (Tree × List Tree)) :
    (scoping src).memberName ⟨value, before', (field, before) :: above⟩ = some (name.text src) := by
  have hidentity : identity src ⟨value, before', (field, before) :: above⟩ =
      binding src ⟨value, before', (field, before) :: above⟩ := by
    rw [identity]
    dsimp only
    generalize value.kind = kind at hfunction
    cases kind <;> first | rfl | cases hfunction
  have hrole : value.role = some .value := (Tree.mem_of_child? hvalue).2
  simp only [scoping, hidentity, binding, Spot.parent?, hfield, hrole, hname]
  rcases hplain with hkind | hkind | hkind
  all_goals
    rw [hkind]
    rfl

theorem members_sublist_attributed {K : Spot} (hplain : NamesPlainly K.node)
    (hbody : ∀ body, K.node.child? .body = some body → body.kind.isBlock = true) :
    ((scoping src).members K.node).Sublist ((scoping src).attributed K) := by
  refine Scoping.members_sublist_attributed (List.filterMap_eq_flatMap_toList _ _)
    (fun body h => isBlock_neither src (hbody body h)) fun t ht before above => ?_
  cases hm : memberAt src t with
  | none => exact List.nil_sublist _
  | some m =>
    refine List.singleton_sublist.mpr (List.mem_filterMap.mpr ?_)
    rw [memberAt] at hm
    split at hm
    · next hkind =>
      obtain ⟨name, hname, rfl⟩ := Option.map_eq_some_iff.mp hm
      have hfunction : (scoping src).isFunction t.kind = true := hkind ▸ rfl
      rw [Scoping.held_of_isFunction hfunction]
      refine ⟨_, List.mem_singleton_self _, ?_⟩
      simp [Scoping.entry, scoping, identity, hkind, hname]
    · next hkind =>
      obtain ⟨value, hvalue, hm⟩ := Option.bind_eq_some_iff.mp hm
      obtain ⟨text, hnameOf, rfl⟩ := Option.map_eq_some_iff.mp hm
      obtain ⟨name, hname, rfl⟩ := Option.map_eq_some_iff.mp hnameOf
      obtain ⟨hchild, hvalueKind⟩ := Option.filter_eq_some_iff.mp hvalue
      have hfunction : (scoping src).isFunction t.kind = false := hkind ▸ rfl
      have hclass : (scoping src).isClass t.kind = false := hkind ▸ rfl
      have hheld : (scoping src).isFunction value.kind = true := isFunction_of_value hvalueKind
      rw [Scoping.held_of_neither hfunction hclass]
      obtain ⟨before', hmem⟩ :=
        Scoping.exists_mem_heldInAll (Tree.mem_of_child? hchild).1 hheld
      refine ⟨_, hmem, Option.map_eq_some_iff.mpr ⟨_, ?_, rfl⟩⟩
      exact memberName_value src hkind hchild hvalueKind hname (hplain t ht hkind name hname) ..
    · cases hm

theorem kind_cases (kind : Kind) :
    (kind = .functionDefinition ∨ kind = .generatorDeclaration ∨ kind = .methodDefinition ∨
      kind = .arrowFunction ∨ kind = .functionExpression) ∨
    (kind = .classDefinition ∨ kind = .abstractClass ∨ kind = .classExpression) ∨
    (isFunction kind = false ∧ isClass kind = false) := by
  cases kind <;> decide

mutual
theorem functionsIn_eq (owner : Option Spot) (before : List Tree)
    (above : List (Tree × List Tree)) : (t : Tree) →
    functionsIn src (owner.bind (className src)) before above t =
      ((scoping src).visits owner before above t).filterMap (recordAt src)
  | .node kind role start stop children => by
    rcases kind_cases kind with hkind | hkind | ⟨hfunction, hclass⟩
    · rcases hkind with rfl | rfl | rfl | rfl | rfl
      all_goals
        rw [functionsIn, Scoping.visits_of_isFunction rfl, Scoping.filterMap_cons_toList,
          ← functionsInBody_eq none [] _ children, recordAt, identity]
        simp only [Tree.kind, Option.map_map]
        rfl
    · rcases hkind with rfl | rfl | rfl
      all_goals
        rw [functionsIn, Scoping.visits_of_isClass rfl rfl, ← functionsInBody_eq _ [] _ children]
        rfl
    · rw [functionsIn, Scoping.visits_of_neither hfunction hclass]
      · exact functionsInAll_eq owner [] _ children
      -- the kind is none of those that are treated in another way
      all_goals
        rintro rfl
        first
          | exact absurd hfunction (by decide)
          | exact absurd hclass (by decide)
termination_by structural t => t

theorem functionsInBody_eq (owner : Option Spot) (before : List Tree)
    (above : List (Tree × List Tree)) : (ts : List Tree) →
    functionsInBody src (owner.bind (className src)) before above ts =
      ((scoping src).visitsInBody owner before above ts).filterMap (recordAt src)
  | [] => rfl
  | t :: ts => by
    rw [functionsInBody, Scoping.visitsInBody]
    split
    · exact functionsIn_eq owner before above t
    · exact functionsInBody_eq owner (t :: before) above ts
termination_by structural ts => ts

theorem functionsInAll_eq (owner : Option Spot) (before : List Tree)
    (above : List (Tree × List Tree)) : (ts : List Tree) →
    functionsInAll src (owner.bind (className src)) before above ts =
      ((scoping src).visitsInAll owner before above ts).filterMap (recordAt src)
  | [] => rfl
  | t :: ts => by
    rw [functionsInAll, Scoping.visitsInAll, List.filterMap_append,
      functionsIn_eq owner before above t, functionsInAll_eq owner (t :: before) above ts]
termination_by structural ts => ts
end

mutual
theorem classesIn_eq (before : List Tree) (above : List (Tree × List Tree)) : (t : Tree) →
    classesIn src before above t =
      ((scoping src).classes before above t).filterMap (classRecord src)
  | .node kind role start stop children => by
    rw [classesIn, Scoping.filterMap_classes, ← classesInAll_eq [] _ children]
    rfl

theorem classesInAll_eq (before : List Tree) (above : List (Tree × List Tree)) :
    (ts : List Tree) → classesInAll src before above ts =
      ((scoping src).classesInAll before above ts).filterMap (classRecord src)
  | [] => rfl
  | t :: ts => by
    rw [classesInAll, Scoping.classesInAll, List.filterMap_append, classesIn_eq before above t,
      classesInAll_eq (t :: before) above ts]
end

theorem records : (scoping src).Records (recordAt src) (classRecord src) where
  member := by
    intro v n h
    obtain ⟨⟨anchor, name, counts⟩, hidentity, hname⟩ := Option.bind_eq_some_iff.mp h
    rw [recordAt, hidentity]
    cases counts with
    | false => cases hname
    | true =>
      cases hname
      exact ⟨_, rfl, rfl⟩
  owner := by
    intro v f h
    obtain ⟨⟨anchor, name, counts⟩, hidentity, rfl⟩ := Option.map_eq_some_iff.mp h
    simp only [scoping, hidentity, Option.bind_some]
    cases counts <;> rfl
  name := by
    intro K C h
    obtain ⟨name, hname, rfl⟩ := Option.map_eq_some_iff.mp h
    exact hname
  methods := by
    intro K C h
    obtain ⟨name, hname, rfl⟩ := Option.map_eq_some_iff.mp h
    exact methodNames_eq src K.node
  isSome := by
    intro K K' C h h'
    have hname : className src K' = some C.name := h'
    rw [classRecord, hname]
    rfl

end Script

/-! ## Java -/

namespace Java

variable (src : Source)

/-- The method that a member of a class body is. -/
def memberAt (member : Tree) : Option (Tree × String) :=
  if isMethod member.kind then (nameOf src member).map (member, ·) else none

def members (t : Tree) : List (Tree × String) :=
  t.statements.flatMap fun member =>
    (if member.kind == .enumBody then member.namedChildren else [member]).filterMap (memberAt src)

def scoping : Scoping where
  isFunction := isMethod
  isClass := isType
  className K := nameOf src K.node
  memberName s := nameOf src s.node
  members := members src

/-- The record of a method that the walk comes to. -/
def recordAt (v : Option Spot × Spot) : Option FunctionRecord :=
  methodRecord src (v.1.bind (scoping src).className) v.2.before v.2.node

def typeAt (K : Spot) : Option ClassRecord := typeRecord src K.before K.node

theorem methodNames_eq (t : Tree) : methodNames src t = (members src t).map Prod.snd := by
  rw [methodNames, members, Tree.statements]
  cases t.child? .body with
  | none => rfl
  | some body =>
    rw [List.map_flatMap]
    refine congrArg (List.flatMap · body.namedChildren) (funext fun member => ?_)
    rw [List.map_filterMap]
    refine congrArg (List.filterMap · _) (funext fun m => ?_)
    rw [memberAt]
    split
    · exact (Option.map_snd_pair _ _).symm
    · rfl

theorem isBlock_neither {kind : Kind} (h : kind.isBlock = true) :
    (scoping src).isFunction kind = false ∧ (scoping src).isClass kind = false := by
  cases kind <;> first | exact ⟨rfl, rfl⟩ | cases h

theorem memberAt_sublist (m : Tree) (before : List Tree) (above : List (Tree × List Tree)) :
    (memberAt src m).toList.Sublist
      (((scoping src).held before above m).filterMap (scoping src).entry) := by
  rw [memberAt]
  split
  · next hmethod =>
    have hfunction : (scoping src).isFunction m.kind = true := hmethod
    rw [Scoping.held_of_isFunction hfunction, Scoping.filterMap_cons_toList, List.filterMap_nil,
      List.append_nil]
    exact .refl _
  · exact List.nil_sublist _

theorem members_sublist_attributed {K : Spot}
    (hbody : ∀ body, K.node.child? .body = some body → body.kind.isBlock = true) :
    ((scoping src).members K.node).Sublist ((scoping src).attributed K) := by
  refine Scoping.members_sublist_attributed rfl
    (fun body h => isBlock_neither src (hbody body h)) fun t ht before above => ?_
  rw [List.filterMap_eq_flatMap_toList]
  split
  · next henum =>
    have hkind : t.kind = .enumBody := beq_iff_eq.mp henum
    have hfunction : (scoping src).isFunction t.kind = false := hkind ▸ rfl
    have hclass : (scoping src).isClass t.kind = false := hkind ▸ rfl
    rw [Scoping.held_of_neither hfunction hclass]
    exact Scoping.sublist_heldInAll fun m _ before => memberAt_sublist src m before _
  · rw [List.flatMap_singleton]
    exact memberAt_sublist src t before above

mutual
theorem methodsIn_eq (owner : Option Spot) (before : List Tree)
    (above : List (Tree × List Tree)) : (t : Tree) →
    methodsIn src (owner.bind (scoping src).className) before t =
      ((scoping src).visits owner before above t).filterMap (recordAt src)
  | .node kind role start stop children => by
    rw [methodsIn]
    by_cases hmethod : isMethod kind = true
    · rw [if_pos hmethod, Scoping.visits_of_isFunction hmethod, Scoping.filterMap_cons_toList,
        ← methodsInBody_eq none [] _ children]
      rfl
    · rw [if_neg hmethod]
      have hmethod : isMethod kind = false := Bool.not_eq_true _ ▸ hmethod
      by_cases htype : isType kind = true
      · rw [if_pos htype, Scoping.visits_of_isClass hmethod htype,
          ← methodsInBody_eq _ [] _ children]
        rfl
      · rw [if_neg htype, Scoping.visits_of_neither hmethod (Bool.not_eq_true _ ▸ htype)]
        exact methodsInAll_eq owner [] _ children

theorem methodsInBody_eq (owner : Option Spot) (before : List Tree)
    (above : List (Tree × List Tree)) : (ts : List Tree) →
    methodsInBody src (owner.bind (scoping src).className) before ts =
      ((scoping src).visitsInBody owner before above ts).filterMap (recordAt src)
  | [] => rfl
  | t :: ts => by
    rw [methodsInBody, Scoping.visitsInBody]
    split
    · exact methodsIn_eq owner before above t
    · exact methodsInBody_eq owner (t :: before) above ts

theorem methodsInAll_eq (owner : Option Spot) (before : List Tree)
    (above : List (Tree × List Tree)) : (ts : List Tree) →
    methodsInAll src (owner.bind (scoping src).className) before ts =
      ((scoping src).visitsInAll owner before above ts).filterMap (recordAt src)
  | [] => rfl
  | t :: ts => by
    rw [methodsInAll, Scoping.visitsInAll, List.filterMap_append,
      methodsIn_eq owner before above t, methodsInAll_eq owner (t :: before) above ts]
end

mutual
theorem typesIn_eq (before : List Tree) (above : List (Tree × List Tree)) : (t : Tree) →
    typesIn src before t = ((scoping src).classes before above t).filterMap (typeAt src)
  | .node kind role start stop children => by
    rw [typesIn, Scoping.filterMap_classes, ← typesInAll_eq [] _ children]
    rfl

theorem typesInAll_eq (before : List Tree) (above : List (Tree × List Tree)) :
    (ts : List Tree) →
    typesInAll src before ts = ((scoping src).classesInAll before above ts).filterMap (typeAt src)
  | [] => rfl
  | t :: ts => by
    rw [typesInAll, Scoping.classesInAll, List.filterMap_append, typesIn_eq before above t,
      typesInAll_eq (t :: before) above ts]
end

theorem records : (scoping src).Records (recordAt src) (typeAt src) where
  member := by
    intro v n h
    have hname : nameOf src v.2.node = some n := h
    rw [recordAt, methodRecord, hname]
    exact ⟨_, rfl, rfl⟩
  owner := by
    intro v f h
    obtain ⟨name, hname, rfl⟩ := Option.map_eq_some_iff.mp h
    have hsome : (scoping src).memberName v.2 = some name := hname
    rw [hsome, Option.isSome_some, if_pos rfl]
  name := by
    intro K C h
    obtain ⟨name, hname, rfl⟩ := Option.map_eq_some_iff.mp h
    exact hname
  methods := by
    intro K C h
    obtain ⟨name, hname, rfl⟩ := Option.map_eq_some_iff.mp h
    exact methodNames_eq src K.node
  isSome := by
    intro K K' C h h'
    have hname : nameOf src K'.node = some C.name := h'
    rw [typeAt, typeRecord, hname]
    rfl

end Java

/-! ## Source files -/

namespace Language

/-- How a language tells functions and classes. In Go there are no bodies of classes: a class lists the
functions that name it as the type of their receiver. -/
def scoping? (src : Source) : Language → Option Scoping
  | python => some (Python.scoping src)
  | javascript | typescript | tsx => some (Script.scoping src)
  | java => some (Java.scoping src)
  | go => none

/-- The functions of an outline are those that the walk comes to, and the classes all there are. -/
theorem exists_records {l : Language} {src : Source} {S : Scoping} (hS : l.scoping? src = some S)
    (root : Tree) : ∃ function cls, S.Records function cls ∧
      (l.outline src root).functions = (S.visits none [] [] root).filterMap function ∧
      (l.outline src root).classes = (S.classes [] [] root).filterMap cls := by
  cases l with
  | python =>
    cases hS
    exact ⟨_, _, Python.records src, Python.functionsIn_eq src none [] [] root,
      Python.classesIn_eq src [] [] root⟩
  | javascript | typescript | tsx =>
    cases hS
    exact ⟨_, _, Script.records src, Script.functionsIn_eq src none [] [] root,
      Script.classesIn_eq src [] [] root⟩
  | go => cases hS
  | java =>
    cases hS
    exact ⟨_, _, Java.records src, Java.methodsIn_eq src none [] [] root,
      Java.typesIn_eq src [] [] root⟩

end Language

/-- Where classes have bodies, those of a name keep to their members. -/
def Language.KeepsMembers (l : Language) (src : Source) (root : Tree) (name : String) : Prop :=
  match l.scoping? src with
  | some S => S.KeepsMembers root name
  | none => True

/-- What a class lists are names under which functions can be extracted. -/
def Language.NamesPlainly (l : Language) (src : Source) (t : Tree) : Prop :=
  match l with
  | python => Python.NamesPlainly src t
  | javascript | typescript | tsx => Script.NamesPlainly t
  | java | go => True

/-- The classes of a name do so. -/
def Language.ListsPlainNames (l : Language) (src : Source) (root : Tree) (name : String) : Prop :=
  match l.scoping? src with
  | some S => ∀ K ∈ S.classes [] [] root, S.className K = some name → l.NamesPlainly src K.node
  | none => True

/-- In what can be parsed, a class lists functions that its body holds. -/
theorem Language.members_sublist_attributed {l : Language} {src : Source} {S : Scoping}
    (hS : l.scoping? src = some S) {K : Spot} (hK : K ∈ S.classes [] [] (l.parse src))
    (hplain : l.NamesPlainly src K.node) : (S.members K.node).Sublist (S.attributed K) := by
  cases l with
  | python =>
    cases hS
    exact Python.members_sublist_attributed src hplain fun body h =>
      Scoping.isBlock_of_mem_classes h [] [] _ (Python.blockBodied_parse src) hK
  | javascript | typescript | tsx =>
    cases hS
    exact Script.members_sublist_attributed src hplain fun body h =>
      Scoping.isBlock_of_mem_classes h [] [] _ (Script.blockBodied_parse _ src) hK
  | go => cases hS
  | java =>
    cases hS
    exact Java.members_sublist_attributed src fun body h =>
      Scoping.isBlock_of_mem_classes h [] [] _ (Java.blockBodied_parse src) hK

/-- In Go a class always lists the functions that are given to it. -/
theorem Go.methods_eq {src : Source} {root : Tree} {C : ClassRecord}
    (hC : C ∈ (Go.outline src root).classes) :
    C.methods = Scoping.namesIn C.name (Go.outline src root).functions := by
  obtain ⟨D, -, rfl⟩ := List.mem_map.mp hC
  rfl

namespace SourceFile

variable {l : Language} {path : String} {bytes : ByteArray} {modified : Timestamp}
  {C : ClassRecord}

/-- The text of a file. -/
def source (bytes : ByteArray) : Source := (Text.decode bytes).toList.toArray

/-- The symbols of a file are those of its syntax tree, unless there are none. -/
theorem symbols_cases (l : Language) (path : String) (bytes : ByteArray) (modified : Timestamp) :
    let file := ofBytes l path bytes modified
    let outline := l.outline (source bytes) (l.parse (source bytes))
    (file.functions = [] ∧ file.classes = []) ∨
      (file.functions = outline.functions ∧ file.classes = outline.classes) := by
  unfold ofBytes
  dsimp only
  split
  · exact .inl ⟨rfl, rfl⟩
  · split
    · exact .inl ⟨rfl, rfl⟩
    · exact .inr ⟨rfl, rfl⟩

/-- A class whose name no other class of the file has lists the functions that are given to it if it
keeps to its members, and, as long as it lists plain names, in no other case. -/
theorem methods_iff_keepsMembers
    (hunique : (ofBytes l path bytes modified).classes.filter (·.name == C.name) = [C]) :
    let root := l.parse (source bytes)
    let given := Scoping.namesIn C.name (ofBytes l path bytes modified).functions
    (l.KeepsMembers (source bytes) root C.name → C.methods = given) ∧
      (l.ListsPlainNames (source bytes) root C.name → C.methods = given →
        l.KeepsMembers (source bytes) root C.name) := by
  have hC : C ∈ (ofBytes l path bytes modified).classes :=
    (List.mem_filter.mp (hunique ▸ List.mem_singleton_self C)).1
  obtain ⟨-, hnone⟩ | ⟨hfunctions, hclasses⟩ := symbols_cases l path bytes modified
  · rw [hnone] at hC
    cases hC
  rw [hclasses] at hunique hC
  intro root given
  have hgiven : given = Scoping.namesIn C.name (l.outline (source bytes) root).functions :=
    congrArg (Scoping.namesIn C.name) hfunctions
  simp only [hgiven, Language.KeepsMembers, Language.ListsPlainNames]
  cases hscoping : l.scoping? (source bytes) with
  | none =>
    cases l with
    | go => exact ⟨fun _ => Go.methods_eq hC, fun _ _ => trivial⟩
    | python | javascript | typescript | tsx | java => cases hscoping
  | some S =>
    obtain ⟨function, cls, hrecords, hfs, hcs⟩ := Language.exists_records hscoping root
    rw [hcs] at hunique
    rw [hfs]
    refine ⟨hrecords.methods_of_keepsMembers hunique, fun hlists hmethods => ?_⟩
    refine hrecords.keepsMembers_of_methods hunique (fun K hK => ?_) hmethods
    obtain ⟨hclass, hname⟩ := List.mem_filter.mp hK
    exact Language.members_sublist_attributed hscoping hclass (hlists K hclass (beq_iff_eq.mp hname))

/-- A class with a method and, behind it, a class with a method of the same name. -/
def nestedClasses : ByteArray :=
  "class C:
  def f(): 0
  class D:
    def f(): 0
".toUTF8

def outerClass : ClassRecord := { name := "C", line := 1, endLine := 4, methods := ["f"] }

set_option maxRecDepth 100000 in
theorem methods_iff_keepsMembers_nestedClasses :
    (ofBytes .python "c.py" nestedClasses ⟨0, 0⟩).classes.filter (·.name == outerClass.name) =
        [outerClass] ∧
      Language.python.KeepsMembers (source nestedClasses)
        (Language.python.parse (source nestedClasses)) outerClass.name ∧
      outerClass.methods = Scoping.namesIn outerClass.name
        (ofBytes .python "c.py" nestedClasses ⟨0, 0⟩).functions := by
  have hunique : (ofBytes .python "c.py" nestedClasses ⟨0, 0⟩).classes.filter
      (·.name == outerClass.name) = [outerClass] := by
    decide +kernel
  have hkeeps : (Python.scoping (source nestedClasses)).KeepsMembers
      (Language.python.parse (source nestedClasses)) outerClass.name := by
    decide +kernel
  exact ⟨hunique, hkeeps, (methods_iff_keepsMembers hunique).1 hkeeps⟩

end SourceFile

end CodeAtlas
