import CodeAtlas.Outline.Script
/-!
# Two walks through a tree

The functions of a tree are found by a walk that carries the class in whose body it is; the classes by
one that comes to every node. The first says of a function which class it is in, the second lists for
a class what is at the places of its members. `Scoping` is what the languages that have classes with
bodies differ in; where the two walks agree is told here for all of them.

Results:
1. `owned_visits`: the functions that are given to the classes of a name are those that their bodies
   hold, as long as there is not more than one such class where the walk comes to.
2. `walked_sublist`: the walk comes to some of the classes, in their order.
3. `members_sublist_attributed`: a body holds the members of its class if each of its statements holds
   what is listed of it.
4. `methods_of_keepsMembers`: a class lists the functions given to it if its body holds its members
   and no other functions.
5. `keepsMembers_of_methods`: and only then, if each member is a function that its body holds.
-/

namespace CodeAtlas

open Script (Spot)

/-! ## Comparing trees -/

namespace Tree

mutual
def decEq : (t u : Tree) → Decidable (t = u)
  | .node k r s e cs, .node k' r' s' e' cs' =>
    if h : k = k' ∧ r = r' ∧ s = s' ∧ e = e' then
      match listDecEq cs cs' with
      | isTrue hcs => isTrue (by rw [h.1, h.2.1, h.2.2.1, h.2.2.2, hcs])
      | isFalse hcs => isFalse fun heq => hcs (node.inj heq).2.2.2.2
    else isFalse fun heq =>
      let ⟨hk, hr, hs, he, _⟩ := node.inj heq
      h ⟨hk, hr, hs, he⟩

def listDecEq : (ts us : List Tree) → Decidable (ts = us)
  | [], [] => isTrue rfl
  | [], _ :: _ => isFalse nofun
  | _ :: _, [] => isFalse nofun
  | t :: ts, u :: us =>
    match decEq t u, listDecEq ts us with
    | isTrue ht, isTrue hts => isTrue (by rw [ht, hts])
    | isFalse ht, _ => isFalse fun heq => ht (List.cons.inj heq).1
    | _, isFalse hts => isFalse fun heq => hts (List.cons.inj heq).2
end

instance : DecidableEq Tree := decEq

theorem mem_of_child? {t c : Tree} {r : Role} (h : t.child? r = some c) :
    c ∈ t.children ∧ c.role = some r := by
  have hrole := List.find?_some (p := fun c : Tree => c.role == some r) h
  exact ⟨List.mem_of_find?_eq_some h, beq_iff_eq.mp hrole⟩

/-- The nodes in the body of a class. -/
def statements (t : Tree) : List Tree := ((t.child? .body).map namedChildren).getD []

end Tree

deriving instance DecidableEq for Spot

/-! ## Scopings -/

/-- How a language tells functions and classes, and what belongs to a class. -/
structure Scoping where
  isFunction : Kind → Bool
  isClass : Kind → Bool
  className : Spot → Option String
  /-- The name under which a function counts for the class in whose body it is. -/
  memberName : Spot → Option String
  /-- The nodes at the places of members, with the names under which the class lists them. -/
  members : Tree → List (Tree × String)

namespace Scoping

variable (S : Scoping)

/-! ## The walks -/

mutual
/-- The functions that a walk comes to, each with the class in whose body the walk then is. The body
of a function is no part of that of a class around. -/
def visits (owner : Option Spot) (before : List Tree) (above : List (Tree × List Tree)) :
    Tree → List (Option Spot × Spot)
  | .node kind role start stop children =>
    let t := Tree.node kind role start stop children
    let spot : Spot := ⟨t, before, above⟩
    let inside := (t, before) :: above
    if S.isFunction kind then (owner, spot) :: visitsInBody none [] inside children
    else if S.isClass kind then visitsInBody (some spot) [] inside children
    else visitsInAll owner [] inside children

def visitsInBody (owner : Option Spot) (before : List Tree) (above : List (Tree × List Tree)) :
    List Tree → List (Option Spot × Spot)
  | [] => []
  | t :: ts =>
    if t.role == some .body then visits owner before above t
    else visitsInBody owner (t :: before) above ts

def visitsInAll (owner : Option Spot) (before : List Tree) (above : List (Tree × List Tree)) :
    List Tree → List (Option Spot × Spot)
  | [] => []
  | t :: ts => visits owner before above t ++ visitsInAll owner (t :: before) above ts
end

mutual
/-- The classes that the same walk comes to. -/
def walked (before : List Tree) (above : List (Tree × List Tree)) : Tree → List Spot
  | .node kind role start stop children =>
    let t := Tree.node kind role start stop children
    let spot : Spot := ⟨t, before, above⟩
    let inside := (t, before) :: above
    if S.isFunction kind then walkedInBody [] inside children
    else if S.isClass kind then spot :: walkedInBody [] inside children
    else walkedInAll [] inside children

def walkedInBody (before : List Tree) (above : List (Tree × List Tree)) : List Tree → List Spot
  | [] => []
  | t :: ts =>
    if t.role == some .body then walked before above t else walkedInBody (t :: before) above ts

def walkedInAll (before : List Tree) (above : List (Tree × List Tree)) : List Tree → List Spot
  | [] => []
  | t :: ts => walked before above t ++ walkedInAll (t :: before) above ts
end

mutual
/-- The functions in a tree that are neither in the body of another one nor in a class. -/
def held (before : List Tree) (above : List (Tree × List Tree)) : Tree → List Spot
  | .node kind role start stop children =>
    let t := Tree.node kind role start stop children
    if S.isFunction kind then [⟨t, before, above⟩]
    else if S.isClass kind then []
    else heldInAll [] ((t, before) :: above) children

def heldInAll (before : List Tree) (above : List (Tree × List Tree)) : List Tree → List Spot
  | [] => []
  | t :: ts => held before above t ++ heldInAll (t :: before) above ts
end

/-- The functions that the first child that is a body holds. -/
def heldInBody (before : List Tree) (above : List (Tree × List Tree)) : List Tree → List Spot
  | [] => []
  | t :: ts =>
    if t.role == some .body then S.held before above t else heldInBody (t :: before) above ts

mutual
/-- All classes of a tree. -/
def classes (before : List Tree) (above : List (Tree × List Tree)) : Tree → List Spot
  | .node kind role start stop children =>
    let t := Tree.node kind role start stop children
    (if S.isClass kind then [⟨t, before, above⟩] else []) ++
      classesInAll [] ((t, before) :: above) children

def classesInAll (before : List Tree) (above : List (Tree × List Tree)) : List Tree → List Spot
  | [] => []
  | t :: ts => classes before above t ++ classesInAll (t :: before) above ts
end

/-- The functions that the body of a class holds. -/
def heldBy (K : Spot) : List Spot := S.heldInBody [] ((K.node, K.before) :: K.above) K.node.children

/-- Those that count for the class, with the names under which they do. -/
def attributed (K : Spot) : List (Tree × String) :=
  (S.heldBy K).filterMap fun s => (S.memberName s).map (s.node, ·)

/-- The classes of a name keep to their members: the walk for functions comes to them, unless they
have no members, and their bodies hold their members and no other functions. -/
def KeepsMembers (root : Tree) (name : String) : Prop :=
  ∀ K ∈ S.classes [] [] root, S.className K = some name →
    (K ∉ S.walked [] [] root → S.members K.node = []) ∧
      (K ∈ S.walked [] [] root → S.attributed K = S.members K.node)

instance (root : Tree) (name : String) : Decidable (S.KeepsMembers root name) :=
  inferInstanceAs (Decidable (∀ K ∈ S.classes [] [] root, _))

section

variable {S} {owner : Option Spot} {before children : List Tree} {above : List (Tree × List Tree)}
  {kind : Kind} {role : Option Role} {start stop : Nat}

theorem visits_of_isFunction (h : S.isFunction kind = true) :
    S.visits owner before above (.node kind role start stop children) =
      (owner, ⟨.node kind role start stop children, before, above⟩) ::
        S.visitsInBody none [] ((.node kind role start stop children, before) :: above) children := by
  rw [visits, if_pos h]

theorem visits_of_isClass (h : S.isFunction kind = false) (hclass : S.isClass kind = true) :
    S.visits owner before above (.node kind role start stop children) =
      S.visitsInBody (some ⟨.node kind role start stop children, before, above⟩) []
        ((.node kind role start stop children, before) :: above) children := by
  rw [visits, if_neg (Bool.not_eq_true _ ▸ h), if_pos hclass]

theorem visits_of_neither (h : S.isFunction kind = false) (hclass : S.isClass kind = false) :
    S.visits owner before above (.node kind role start stop children) =
      S.visitsInAll owner [] ((.node kind role start stop children, before) :: above) children := by
  rw [visits, if_neg (Bool.not_eq_true _ ▸ h), if_neg (Bool.not_eq_true _ ▸ hclass)]

end

/-! ## Which functions are given to which class -/

variable {S} {c : String}

/-- The spots of classes that have the name. -/
def named (S : Scoping) (c : String) (spots : List Spot) : List Spot :=
  spots.filter fun K => S.className K == some c

/-- The functions that are in the bodies of classes that have the name. -/
def owned (S : Scoping) (c : String) (visits : List (Option Spot × Spot)) : List Spot :=
  (visits.filter fun v => v.1.bind S.className == some c).map Prod.snd

/-- At most one class has the name, counted with the one in whose body a walk begins. -/
def IsSingle (S : Scoping) (c : String) (owner : Option Spot) (spots : List Spot) : Prop :=
  (named S c (owner.toList ++ spots)).length ≤ 1

theorem named_cons (K : Spot) (spots : List Spot) : named S c (K :: spots) =
    (if S.className K = some c then [K] else []) ++ named S c spots := by
  by_cases h : S.className K = some c <;> simp [named, h]

theorem named_append (xs ys : List Spot) : named S c (xs ++ ys) = named S c xs ++ named S c ys :=
  List.filter_append xs ys

theorem owned_cons (owner : Option Spot) (spot : Spot) (vs : List (Option Spot × Spot)) :
    owned S c ((owner, spot) :: vs) =
      (if owner.bind S.className = some c then [spot] else []) ++ owned S c vs := by
  by_cases h : owner.bind S.className = some c <;> simp [owned, h]

theorem owned_append (vs ws : List (Option Spot × Spot)) :
    owned S c (vs ++ ws) = owned S c vs ++ owned S c ws := by
  rw [owned, owned, owned, List.filter_append, List.map_append]

namespace IsSingle

variable {owner : Option Spot} {xs ys : List Spot} {K : Spot}

theorem length_le (h : IsSingle S c owner xs) : (named S c xs).length ≤ 1 := by
  rw [IsSingle, named_append, List.length_append] at h
  omega

/-- Where the walk begins in such a class, it comes to no other one. -/
theorem eq_nil (h : IsSingle S c owner xs) (howner : owner.bind S.className = some c) :
    named S c xs = [] := by
  cases owner with
  | none => cases howner
  | some K =>
    rw [Option.bind_some] at howner
    rw [IsSingle, Option.toList_some, List.singleton_append, named_cons, if_pos howner,
      List.length_append, List.length_singleton] at h
    exact List.eq_nil_of_length_eq_zero (by omega)

theorem of_none (h : (named S c xs).length ≤ 1) : IsSingle S c none xs := h

theorem left (h : IsSingle S c owner (xs ++ ys)) : IsSingle S c owner xs := by
  simp only [IsSingle, named_append, List.length_append] at h ⊢
  omega

theorem right (h : IsSingle S c owner (xs ++ ys)) : IsSingle S c owner ys := by
  simp only [IsSingle, named_append, List.length_append] at h ⊢
  omega

end IsSingle

mutual
/-- The functions that are given to a name: those that a walk finds in the class where it begins, if
this has the name, and those in the body of the class that it comes to. -/
theorem owned_visits (owner : Option Spot) (before : List Tree) (above : List (Tree × List Tree)) :
    (t : Tree) → IsSingle S c owner (S.walked before above t) →
    owned S c (S.visits owner before above t) =
      (if owner.bind S.className = some c then S.held before above t else []) ++
        (named S c (S.walked before above t)).flatMap S.heldBy
  | .node kind role start stop children => by
    intro hsingle
    rw [visits, walked, held]
    rw [walked] at hsingle
    by_cases hfunction : S.isFunction kind
    · -- the body of a function is in no class
      rw [if_pos hfunction] at hsingle
      rw [if_pos hfunction, if_pos hfunction, if_pos hfunction, owned_cons,
        owned_visitsInBody none _ _ children (.of_none hsingle.length_le)]
      rfl
    · rw [if_neg hfunction] at hsingle
      rw [if_neg hfunction, if_neg hfunction, if_neg hfunction]
      by_cases hclass : S.isClass kind
      · rw [if_pos hclass] at hsingle
        have hinner := owned_visitsInBody
          (some ⟨.node kind role start stop children, before, above⟩) []
          ((.node kind role start stop children, before) :: above) children hsingle.length_le
        rw [if_pos hclass, if_pos hclass, if_pos hclass, hinner, ite_self, List.nil_append,
          named_cons, List.flatMap_append, Option.bind_some]
        split
        · rw [List.flatMap_singleton]
          rfl
        · rfl
      · rw [if_neg hclass] at hsingle
        rw [if_neg hclass, if_neg hclass, if_neg hclass]
        exact owned_visitsInAll owner _ _ children hsingle

theorem owned_visitsInBody (owner : Option Spot) (before : List Tree)
    (above : List (Tree × List Tree)) :
    (ts : List Tree) → IsSingle S c owner (S.walkedInBody before above ts) →
    owned S c (S.visitsInBody owner before above ts) =
      (if owner.bind S.className = some c then S.heldInBody before above ts else []) ++
        (named S c (S.walkedInBody before above ts)).flatMap S.heldBy
  | [], _ => by
    rw [heldInBody, ite_self]
    rfl
  | t :: ts, hsingle => by
    rw [visitsInBody, walkedInBody, heldInBody]
    rw [walkedInBody] at hsingle
    split
    · next hbody =>
      rw [if_pos hbody] at hsingle
      exact owned_visits owner before above t hsingle
    · next hbody =>
      rw [if_neg hbody] at hsingle
      exact owned_visitsInBody owner (t :: before) above ts hsingle

theorem owned_visitsInAll (owner : Option Spot) (before : List Tree)
    (above : List (Tree × List Tree)) :
    (ts : List Tree) → IsSingle S c owner (S.walkedInAll before above ts) →
    owned S c (S.visitsInAll owner before above ts) =
      (if owner.bind S.className = some c then S.heldInAll before above ts else []) ++
        (named S c (S.walkedInAll before above ts)).flatMap S.heldBy
  | [], _ => by
    rw [heldInAll, ite_self]
    rfl
  | t :: ts, hsingle => by
    rw [walkedInAll] at hsingle
    rw [visitsInAll, walkedInAll, heldInAll, owned_append,
      owned_visits owner before above t hsingle.left,
      owned_visitsInAll owner (t :: before) above ts hsingle.right]
    by_cases howner : owner.bind S.className = some c
    · have hnone := hsingle.eq_nil howner
      obtain ⟨hfirst, hrest⟩ := List.append_eq_nil_iff.mp (named_append (S := S) _ _ ▸ hnone)
      simp only [if_pos howner, hfirst, hrest, hnone, List.flatMap_nil, List.append_nil]
    · simp only [if_neg howner, List.nil_append, named_append, List.flatMap_append]
end

mutual
/-- The walk for functions comes to some of the classes. -/
theorem walked_sublist (before : List Tree) (above : List (Tree × List Tree)) :
    (t : Tree) → (S.walked before above t).Sublist (S.classes before above t)
  | .node kind role start stop children => by
    rw [walked, classes]
    split
    · exact (walkedInBody_sublist _ _ children).trans (List.sublist_append_right _ _)
    · split
      · exact (walkedInBody_sublist _ _ children).cons_cons _
      · exact walkedInAll_sublist _ _ children

theorem walkedInBody_sublist (before : List Tree) (above : List (Tree × List Tree)) :
    (ts : List Tree) → (S.walkedInBody before above ts).Sublist (S.classesInAll before above ts)
  | [] => .refl _
  | t :: ts => by
    rw [walkedInBody, classesInAll]
    split
    · exact (walked_sublist before above t).trans (List.sublist_append_left _ _)
    · exact (walkedInBody_sublist (t :: before) above ts).trans (List.sublist_append_right _ _)

theorem walkedInAll_sublist (before : List Tree) (above : List (Tree × List Tree)) :
    (ts : List Tree) → (S.walkedInAll before above ts).Sublist (S.classesInAll before above ts)
  | [] => .refl _
  | t :: ts => by
    rw [walkedInAll, classesInAll]
    exact (walked_sublist before above t).append (walkedInAll_sublist (t :: before) above ts)
end

/-! ## Members that a body holds -/

/-- A function with the name under which it counts for a class. -/
def entry (S : Scoping) (s : Spot) : Option (Tree × String) := (S.memberName s).map (s.node, ·)

section

variable {before : List Tree} {above : List (Tree × List Tree)} {t : Tree} {ts : List Tree}

theorem held_of_isFunction (h : S.isFunction t.kind = true) :
    S.held before above t = [⟨t, before, above⟩] := by
  obtain ⟨kind, role, start, stop, children⟩ := t
  rw [held]
  exact if_pos h

theorem held_of_neither (h : S.isFunction t.kind = false) (hclass : S.isClass t.kind = false) :
    S.held before above t = S.heldInAll [] ((t, before) :: above) t.children := by
  obtain ⟨kind, role, start, stop, children⟩ := t
  have hfunction : ¬ S.isFunction kind = true := Bool.not_eq_true _ ▸ h
  have hclass : ¬ S.isClass kind = true := Bool.not_eq_true _ ▸ hclass
  rw [held, if_neg hfunction, if_neg hclass, Tree.children]

theorem exists_mem_heldInAll (ht : t ∈ ts) (h : S.isFunction t.kind = true) :
    ∃ before', ⟨t, before', above⟩ ∈ S.heldInAll before above ts := by
  induction ts generalizing before with
  | nil => exact absurd ht List.not_mem_nil
  | cons u ts ih =>
    rw [heldInAll]
    rcases List.mem_cons.mp ht with rfl | ht
    · rw [held_of_isFunction h]
      exact ⟨before, List.mem_append_left _ (List.mem_singleton_self _)⟩
    · obtain ⟨before', hmem⟩ := @ih (u :: before) ht
      exact ⟨before', List.mem_append_right _ hmem⟩

theorem exists_heldInBody_eq {body : Tree} (h : ts.find? (·.role == some .body) = some body) :
    ∃ before', S.heldInBody before above ts = S.held before' above body := by
  induction ts generalizing before with
  | nil => cases h
  | cons u ts ih =>
    rw [heldInBody]
    rw [List.find?_cons] at h
    split at h
    · next hrole =>
      cases h
      rw [if_pos hrole]
      exact ⟨before, rfl⟩
    · next hrole =>
      rw [if_neg (Bool.not_eq_true _ ▸ hrole)]
      exact ih h

/-- A list of children holds what each of them holds. -/
theorem sublist_heldInAll {lists : Tree → List (Tree × String)}
    (h : ∀ t ∈ ts.filter (·.kind.isNamed), ∀ before,
      (lists t).Sublist ((S.held before above t).filterMap S.entry)) :
    ((ts.filter (·.kind.isNamed)).flatMap lists).Sublist
      ((S.heldInAll before above ts).filterMap S.entry) := by
  induction ts generalizing before with
  | nil => exact .refl _
  | cons t ts ih =>
    rw [heldInAll, List.filterMap_append]
    rw [List.filter_cons] at h ⊢
    split
    · next hnamed =>
      rw [if_pos hnamed] at h
      obtain ⟨hfirst, hrest⟩ := List.forall_mem_cons.mp h
      rw [List.flatMap_cons]
      exact (hfirst before).append (ih hrest)
    · next hnamed =>
      rw [if_neg hnamed] at h
      exact (ih h).trans (List.sublist_append_right _ _)

/-- Where each statement of the body holds what is listed of it, the body holds the members. -/
theorem members_sublist_attributed {K : Spot} {lists : Tree → List (Tree × String)}
    (hmembers : S.members K.node = K.node.statements.flatMap lists)
    (hbody : ∀ body, K.node.child? .body = some body →
      S.isFunction body.kind = false ∧ S.isClass body.kind = false)
    (hlists : ∀ t ∈ K.node.statements, ∀ before above,
      (lists t).Sublist ((S.held before above t).filterMap S.entry)) :
    (S.members K.node).Sublist (S.attributed K) := by
  rw [hmembers]
  rw [Tree.statements] at hlists ⊢
  cases hchild : K.node.child? .body with
  | none => exact List.nil_sublist _
  | some body =>
    rw [hchild] at hlists
    obtain ⟨hfunction, hclass⟩ := hbody body hchild
    obtain ⟨before, hheld⟩ : ∃ before, S.heldBy K = _ := exists_heldInBody_eq hchild
    rw [held_of_neither hfunction hclass] at hheld
    have hattributed : S.attributed K = (S.heldBy K).filterMap S.entry := rfl
    rw [hattributed, hheld]
    exact sublist_heldInAll fun t ht before => hlists t ht before _

end

/-! ## What is recorded of them -/

theorem filterMap_cons_toList {α β : Type} (f : α → Option β) (a : α) (as : List α) :
    (a :: as).filterMap f = (f a).toList ++ as.filterMap f := by
  rw [List.filterMap_cons]
  cases f a <;> rfl

theorem filterMap_classes (cls : Spot → Option ClassRecord) {before : List Tree}
    {above : List (Tree × List Tree)} {kind : Kind} {role : Option Role} {start stop : Nat}
    {children : List Tree} :
    (S.classes before above (.node kind role start stop children)).filterMap cls =
      (if S.isClass kind then
        (cls ⟨.node kind role start stop children, before, above⟩).toList else []) ++
      (S.classesInAll [] ((.node kind role start stop children, before) :: above) children).filterMap
        cls := by
  rw [classes, List.filterMap_append]
  split
  · rw [filterMap_cons_toList, List.filterMap_nil, List.append_nil]
  · rfl

/-- The names of the functions that are given to the classes of a name. -/
def namesIn (c : String) (functions : List FunctionRecord) : List String :=
  (functions.filter (·.parentClass == some c)).map (·.name)

theorem namesIn_append (fs gs : List FunctionRecord) :
    namesIn c (fs ++ gs) = namesIn c fs ++ namesIn c gs := by
  rw [namesIn, namesIn, namesIn, List.filter_append, List.map_append]

/-- What a language records of the functions and the classes that the walks come to. -/
structure Records (S : Scoping) (function : Option Spot × Spot → Option FunctionRecord)
    (cls : Spot → Option ClassRecord) : Prop where
  /-- A function that counts for classes is recorded under the name under which it does. -/
  member : ∀ {v n}, S.memberName v.2 = some n → ∃ f, function v = some f ∧ f.name = n
  /-- It is given to the class in whose body it is, any other function to none. -/
  owner : ∀ {v f}, function v = some f →
    f.parentClass = if (S.memberName v.2).isSome then v.1.bind S.className else none
  name : ∀ {K C}, cls K = some C → S.className K = some C.name
  methods : ∀ {K C}, cls K = some C → C.methods = (S.members K.node).map Prod.snd
  /-- There is a record of each class that has the name of one with a record. -/
  isSome : ∀ {K K' C}, cls K = some C → S.className K' = some C.name → (cls K').isSome

namespace Records

variable {function : Option Spot × Spot → Option FunctionRecord} {cls : Spot → Option ClassRecord}
  {root : Tree} {C : ClassRecord}

theorem namesIn_function (h : Records S function cls) (v : Option Spot × Spot) :
    namesIn c (function v).toList =
      if v.1.bind S.className = some c then (S.memberName v.2).toList else [] := by
  cases hname : S.memberName v.2 with
  | some n =>
    obtain ⟨f, hf, rfl⟩ := h.member hname
    have howner := h.owner hf
    rw [hname, Option.isSome_some, if_pos rfl] at howner
    by_cases hc : v.1.bind S.className = some c <;> simp [namesIn, hf, howner, hc]
  | none =>
    rw [Option.toList_none, ite_self]
    cases hf : function v with
    | none => rfl
    | some f =>
      have howner := h.owner hf
      rw [hname, Option.isSome_none, if_neg nofun] at howner
      simp [namesIn, howner]

theorem namesIn_visits (h : Records S function cls) (vs : List (Option Spot × Spot)) :
    namesIn c (vs.filterMap function) = (owned S c vs).filterMap S.memberName := by
  induction vs with
  | nil => rfl
  | cons v vs ih =>
    rw [filterMap_cons_toList, namesIn_append, h.namesIn_function, ih, owned_cons, List.filterMap_append]
    congr 1
    split
    · rw [filterMap_cons_toList, List.filterMap_nil, List.append_nil]
    · rfl

theorem filter_classes (h : Records S function cls) (spots : List Spot) :
    (spots.filterMap cls).filter (·.name == c) = (named S c spots).filterMap cls := by
  induction spots with
  | nil => rfl
  | cons K spots ih =>
    rw [filterMap_cons_toList, List.filter_append, ih, named_cons, List.filterMap_append]
    congr 1
    cases hK : cls K with
    | none => split <;> simp [hK]
    | some D => by_cases hD : D.name = c <;> simp [h.name hK, hK, hD]

/-- A class whose name no other one has comes from the only class of this name. -/
theorem of_unique (h : Records S function cls) {spots : List Spot}
    (hunique : (spots.filterMap cls).filter (·.name == C.name) = [C]) :
    ∃ K, named S C.name spots = [K] ∧ cls K = some C := by
  rw [h.filter_classes] at hunique
  have hmem : C ∈ (named S C.name spots).filterMap cls := hunique ▸ List.mem_singleton_self C
  obtain ⟨K₀, -, hK₀⟩ := List.mem_filterMap.mp hmem
  have hrecord : ∀ K ∈ named S C.name spots, (cls K).isSome := fun K hK =>
    h.isSome hK₀ (beq_iff_eq.mp (List.mem_filter.mp hK).2)
  cases hspots : named S C.name spots with
  | nil =>
    rw [hspots] at hunique
    cases hunique
  | cons K rest =>
    rw [hspots] at hrecord hunique
    obtain ⟨D, hD⟩ := Option.isSome_iff_exists.mp (hrecord K List.mem_cons_self)
    rw [filterMap_cons_toList, hD, Option.toList_some] at hunique
    obtain ⟨hDC, hrest⟩ := List.cons.inj hunique
    cases rest with
    | nil => exact ⟨K, rfl, hDC ▸ hD⟩
    | cons K' rest =>
      obtain ⟨D', hD'⟩ := Option.isSome_iff_exists.mp (hrecord K' (by simp))
      rw [filterMap_cons_toList, hD'] at hrest
      cases hrest

/-- The functions that are given to a class whose name no other one has. -/
theorem namesIn_unique (h : Records S function cls) {K : Spot}
    (hK : named S c (S.classes [] [] root) = [K]) :
    (K ∈ S.walked [] [] root → namesIn c ((S.visits none [] [] root).filterMap function) =
        (S.attributed K).map Prod.snd) ∧
      (K ∉ S.walked [] [] root →
        namesIn c ((S.visits none [] [] root).filterMap function) = []) := by
  have hsublist : (named S c (S.walked [] [] root)).Sublist [K] :=
    hK ▸ (walked_sublist [] [] root).filter _
  have howned := owned_visits none [] [] root (.of_none hsublist.length_le)
  rw [h.namesIn_visits, howned, Option.bind_none, if_neg nofun, List.nil_append]
  have hname : S.className K = some c := by
    have hmem : K ∈ named S c (S.classes [] [] root) := hK ▸ List.mem_singleton_self K
    exact beq_iff_eq.mp (List.mem_filter.mp hmem).2
  constructor
  · intro hwalked
    have hmem : K ∈ named S c (S.walked [] [] root) :=
      List.mem_filter.mpr ⟨hwalked, beq_iff_eq.mpr hname⟩
    have heq : named S c (S.walked [] [] root) = [K] :=
      hsublist.eq_of_length_le (List.length_pos_of_mem hmem)
    rw [heq, List.flatMap_singleton, attributed, List.map_filterMap]
    congr 1
    funext s
    cases S.memberName s <;> rfl
  · intro hwalked
    have hnone : named S c (S.walked [] [] root) = [] := by
      refine List.eq_nil_iff_forall_not_mem.mpr fun K' hK' => hwalked ?_
      obtain rfl : K' = K := List.mem_singleton.mp (hsublist.subset hK')
      exact (List.mem_filter.mp hK').1
    rw [hnone]
    rfl

/-- The class lists the functions that are given to it if it keeps to its members. -/
theorem methods_of_keepsMembers (h : Records S function cls)
    (hunique : ((S.classes [] [] root).filterMap cls).filter (·.name == C.name) = [C])
    (hkeeps : S.KeepsMembers root C.name) :
    C.methods = namesIn C.name ((S.visits none [] [] root).filterMap function) := by
  obtain ⟨K, hK, hC⟩ := h.of_unique hunique
  obtain ⟨hwalked, hother⟩ := h.namesIn_unique hK
  have hmem : K ∈ named S C.name (S.classes [] [] root) := hK ▸ List.mem_singleton_self K
  obtain ⟨hunreached, hreached⟩ := hkeeps K (List.mem_filter.mp hmem).1 (h.name hC)
  rw [h.methods hC]
  by_cases hin : K ∈ S.walked [] [] root
  · rw [hwalked hin, hreached hin]
  · rw [hother hin, hunreached hin, List.map_nil]

/-- Where its members are functions that the body holds, it does so in no other case. -/
theorem keepsMembers_of_methods (h : Records S function cls)
    (hunique : ((S.classes [] [] root).filterMap cls).filter (·.name == C.name) = [C])
    (hmembers : ∀ K ∈ named S C.name (S.classes [] [] root),
      (S.members K.node).Sublist (S.attributed K))
    (hmethods : C.methods = namesIn C.name ((S.visits none [] [] root).filterMap function)) :
    S.KeepsMembers root C.name := by
  obtain ⟨K, hK, hC⟩ := h.of_unique hunique
  obtain ⟨hwalked, hother⟩ := h.namesIn_unique hK
  rw [h.methods hC] at hmethods
  intro K' hK' hname
  have hmem : K' ∈ named S C.name (S.classes [] [] root) :=
    List.mem_filter.mpr ⟨hK', beq_iff_eq.mpr hname⟩
  obtain rfl : K' = K := List.mem_singleton.mp (hK ▸ hmem)
  constructor
  · intro hin
    rw [hother hin] at hmethods
    exact List.map_eq_nil_iff.mp hmethods
  · intro hin
    rw [hwalked hin] at hmethods
    have hlength := congrArg List.length hmethods
    rw [List.length_map, List.length_map] at hlength
    exact ((hmembers K' hmem).eq_of_length hlength).symm

end Records

end Scoping
end CodeAtlas
