import LanguageService.Check
import LanguageService.Proofs.Blocks

/-!
What a name means where it stands, read off the tree alone: locals and parameters by the blocks
and bodies around the name, then declarations by what the innermost declaration sees, then what
is built in.
-/
namespace LanguageService

namespace Kind

def parameters? : Kind → Option (List NodeId)
  | function _ _ _ parameters _ _ => some parameters
  | method _ _ _ parameters _ _ => some parameters
  | init _ parameters _ _ => some parameters
  | subscript _ _ parameters _ _ => some parameters
  | _ => none

def hasParameters (k : Kind) : Bool := k.parameters?.isSome

def isContainer : Kind → Bool
  | module _ _ => true
  | unit _ => true
  | space _ _ _ => true
  | product _ _ _ _ _ => true
  | extension _ _ _ => true
  | conformance _ _ _ _ => true
  | trait _ _ _ => true
  | _ => false

def isBrace : Kind → Bool
  | brace _ => true
  | _ => false

theorem part_of_parameters? {k : Kind} {ps : List NodeId} {p : NodeId}
    (h : k.parameters? = some ps) (hp : p ∈ ps) : (isParameter, p) ∈ k.parts := by
  cases k <;> simp_all [parameters?, parts]

theorem parameters?_of_isContainer {k : Kind} (h : k.isContainer = true) :
    k.parameters? = none := by
  cases k <;> first | rfl | cases h

theorem isBrace_of_isContainer {k : Kind} (h : k.isContainer = true) : k.isBrace = false := by
  cases k <;> first | rfl | cases h

theorem parameters?_of_isBinding {k : Kind} (h : k.isBinding = true) : k.parameters? = none := by
  cases k <;> first | rfl | cases h

theorem parameters?_of_isStmt {k : Kind} (h : k.isStmt = true) : k.parameters? = none := by
  cases k <;> first | rfl | cases h

theorem parameters?_of_isExpr {k : Kind} (h : k.isExpr = true) : k.parameters? = none := by
  cases k <;> first | rfl | cases h

theorem isBrace_of_parameters? {k : Kind} {ps : List NodeId} (h : k.parameters? = some ps) :
    k.isBrace = false := by
  cases k <;> first | rfl | cases h

def innerSorts : List (Kind → Bool) :=
  [isGeneric, isType, isParameter, isStmt, isVariant, isMemberwise, isBindingPattern, isExpr,
    isBinding, isPattern, isVar]

theorem innerSorts_of_isContainer {k : Kind} (hk : k.isContainer = true) :
    ∀ f ∈ innerSorts, f k = false := by
  cases k <;> first
    | (cases hk; done)
    | simp [innerSorts, isGeneric, isType, isParameter, isStmt, isVariant, isMemberwise,
        isBindingPattern, isExpr, isBinding, isPattern, isVar]

theorem isContainer_of_innerSorts {k k' : Kind} {f : Kind → Bool} {c : NodeId}
    (h : (f, c) ∈ k.parts) (hf : f k' = true) (hk' : ∀ g ∈ innerSorts, g k' = false) :
    k.isContainer = true := by
  have hinner : isGeneric ∈ innerSorts ∧ isType ∈ innerSorts ∧ isParameter ∈ innerSorts ∧
      isStmt ∈ innerSorts ∧ isVariant ∈ innerSorts ∧ isBindingPattern ∈ innerSorts ∧
      isExpr ∈ innerSorts ∧ isBinding ∈ innerSorts ∧ isPattern ∈ innerSorts ∧
      isVar ∈ innerSorts := by
    simp [innerSorts]
  have hparts : k.isContainer = false → ∀ p ∈ k.parts, p.1 ∈ innerSorts := by
    clear h hf hk'
    cases k <;> simp +contextual [isContainer, parts, or_imp, forall_and, hinner]
    case call | subscriptCall =>
      rintro _ _ _ _ _ rfl _
      simp [innerSorts]
  cases hk : k.isContainer with
  | true => rfl
  | false => exact absurd ((hk' f (hparts hk (f, c) h)).symm.trans hf) Bool.false_ne_true

theorem isContainer_of_part {k k' : Kind} {f : Kind → Bool} {c : NodeId} (h : (f, c) ∈ k.parts)
    (hf : f k' = true) (hk' : k'.isContainer = true) : k.isContainer = true :=
  isContainer_of_innerSorts h hf (innerSorts_of_isContainer hk')

theorem isContainer_of_member {k : Kind} {c : NodeId} (h : (isMember, c) ∈ k.parts) :
    k.isContainer = true :=
  @isContainer_of_part k (trait default ⟨"", default⟩ []) isMember c h rfl rfl

end Kind

namespace Tree

def parent? (t : Tree) (n : NodeId) : Option NodeId :=
  (List.range t.size).find? fun p => (t.children p).contains n

def aroundAt (t : Tree) : Nat → NodeId → List (NodeId × NodeId)
  | 0, _ => []
  | fuel + 1, n =>
      match t.parent? n with
      | some p => (n, p) :: t.aroundAt fuel p
      | none => []

def around (t : Tree) (n : NodeId) : List (NodeId × NodeId) := t.aroundAt t.size n

def path (t : Tree) (n : NodeId) : List NodeId := n :: (t.around n).map (·.2)

def boundBy (t : Tree) (s : NodeId) : List NodeId :=
  match t.kind s with
  | .decl b =>
      match t.kind b with
      | .binding p _ => t.patternVars p
      | _ => []
  | _ => []

/-- The locals that `p` brings into the scope of its child `c`, the latest first: a block those
that it binds before `c`, and what has a body its parameters. -/
def localsAt (t : Tree) (c p : NodeId) : Option (List NodeId) :=
  match t.kind p with
  | .brace ss => some ((ss.takeWhile (· != c)).flatMap t.boundBy).reverse
  | k => k.parameters?.map List.reverse

def locals (t : Tree) (n : NodeId) : List (List NodeId) :=
  (t.around n).filterMap fun s => t.localsAt s.1 s.2

/-- The declaration from which names at `n` are looked up: the one whose body it is in, or else
the binding it is in. -/
def home? (t : Tree) (n : NodeId) : Option NodeId :=
  ((t.path n).find? fun d => (t.kind d).hasParameters).or
    ((t.path n).find? fun d => (t.kind d).isBinding)

def typeHomeAt (t : Tree) (c p : NodeId) : Option NodeId :=
  match t.kind p with
  | .bindingPattern _ _ _ _ => t.home? p
  | .extension _ _ _ => (Declarations.ofTree t).parents.get? p
  | .conformance _ subject _ _ =>
      if c = subject then (Declarations.ofTree t).parents.get? p else some p
  | _ => some p

/-- The declaration from which the names in the type `n` are looked up: the home of the binding that
it is written at, what is around the extension whose subject it is in, or else what it is a part
of. -/
def typeHome? (t : Tree) (n : NodeId) : Option NodeId :=
  ((t.around n).find? fun s => !(t.kind s.2).isType).bind fun s => t.typeHomeAt s.1 s.2

def isNamed (t : Tree) (x : String) (d : NodeId) : Bool :=
  match (t.kind d).declares with
  | some y => y.text == x
  | none => false

def builtinNamed (x : String) : Option Reference :=
  if Check.builtinFunctions.contains x || (Builtin.ofWord x).isSome then some (.builtin x)
  else none

/-- What the name `x` means at `n`: the latest local of the innermost block that has one, a
parameter, the first declaration that is visible, or what is built in. -/
def meaning (t : Tree) (n : NodeId) (x : String) : Option Reference :=
  match (t.locals n).findSome? fun vs => vs.find? (t.isNamed x) with
  | some v => some (.direct v)
  | none =>
      match (t.home? n).bind fun d => ((Declarations.ofTree t).lookup t d x).head? with
      | some d => some (if Check.isMember ⟨t, .ofTree t⟩ d then .member d else .direct d)
      | none => builtinNamed x

section Around

variable {t : Tree} {n p c : NodeId}

theorem child_of_parent? (h : t.parent? n = some p) : n ∈ t.children p := by
  simpa using List.find?_some h

variable (ht : t.WellFormed)

include ht

theorem parent?_of_child (hc : c ∈ t.children n) : t.parent? c = some n := by
  cases hp : t.parent? c with
  | none =>
      have hnone := List.find?_eq_none.mp hp n (List.mem_range.mpr (lt_size_of_child hc))
      simp [hc] at hnone
  | some p => rw [ht.parent_unique p n c (child_of_parent? hp) hc]

theorem parent?_bounds {n p : Nat} (h : t.parent? n = some p) : n < p ∧ p < t.size :=
  ⟨ht.child_lt p n (child_of_parent? h), lt_size_of_child (child_of_parent? h)⟩

theorem aroundAt_succ {k n : Nat} (hk : t.size ≤ n + k) :
    t.aroundAt (k + 1) n = t.aroundAt k n := by
  induction k generalizing n with
  | zero =>
      rw [aroundAt, aroundAt]
      split
      · next p hp =>
          have := parent?_bounds ht hp
          omega
      · rfl
  | succ k ih =>
      rw [aroundAt]
      split
      · next p hp =>
          have := parent?_bounds ht hp
          rw [ih (by omega), aroundAt, hp]
      · next hp => rw [aroundAt, hp]

theorem around_of_child (hc : c ∈ t.children n) : t.around c = (c, n) :: t.around n := by
  have hbounds := parent?_bounds ht (parent?_of_child ht hc)
  obtain ⟨k, hk⟩ : ∃ k, t.size = k + 1 := ⟨t.size - 1, by omega⟩
  have hsucc : t.aroundAt (k + 1) n = t.aroundAt k n := aroundAt_succ ht (by omega)
  rw [around, around, hk, hsucc, aroundAt, parent?_of_child ht hc]

theorem path_of_child (hc : c ∈ t.children n) : t.path c = c :: t.path n := by
  rw [path, around_of_child ht hc, path, List.map_cons]

theorem locals_of_child (hc : c ∈ t.children n) :
    t.locals c = (t.localsAt c n).toList ++ t.locals n := by
  rw [locals, around_of_child ht hc, List.filterMap_cons, locals]
  cases t.localsAt c n <;> rfl

end Around

def host? (t : Tree) (n : NodeId) : Option NodeId :=
  (t.path n).find? fun d => (t.kind d).hasParameters

section Hosts

variable {t : Tree} {n p c d : NodeId}

theorem home?_of_host? (h : t.host? n = some d) : t.home? n = some d := by
  rw [host?] at h
  rw [home?, h, Option.some_or]

theorem host?_of_hasParameters (h : (t.kind d).hasParameters = true) : t.host? d = some d := by
  rw [host?, path, List.find?_cons, h]

variable (ht : t.WellFormed)

include ht

theorem host?_of_child (hc : c ∈ t.children n) (hk : (t.kind c).hasParameters = false) :
    t.host? c = t.host? n := by
  rw [host?, path_of_child ht hc, List.find?_cons_of_neg (by simp [hk]), host?]

theorem home?_of_child (hc : c ∈ t.children n) (hk : (t.kind c).hasParameters = false)
    (hb : (t.kind c).isBinding = false) : t.home? c = t.home? n := by
  rw [home?, path_of_child ht hc, List.find?_cons_of_neg (by simp [hk]),
    List.find?_cons_of_neg (by simp [hb]), home?]

theorem typeHome?_of_type (hc : c ∈ t.children n) (hn : (t.kind n).isType = true) :
    t.typeHome? c = t.typeHome? n := by
  rw [typeHome?, around_of_child ht hc, List.find?_cons_of_neg (by simp [hn]), typeHome?]

theorem typeHome?_of_child (hc : c ∈ t.children n) (hn : (t.kind n).isType = false) :
    t.typeHome? c = t.typeHomeAt c n := by
  rw [typeHome?, around_of_child ht hc, List.find?_cons_of_pos (by simp [hn])]
  rfl

theorem isContainer_of_child (hc : c ∈ t.children n) (hk : (t.kind c).isContainer = true) :
    (t.kind n).isContainer = true := by
  obtain ⟨f, hf, hfits⟩ := kind_of_child ht hc
  exact Kind.isContainer_of_part hf hfits hk

theorem isContainer_of_mem_around (hk : (t.kind n).isContainer = true) :
    ∀ s ∈ t.around n, (t.kind s.2).isContainer = true := by
  have hat (k : Nat) : ∀ s ∈ t.aroundAt k n, (t.kind s.2).isContainer = true := by
    induction k generalizing n with
    | zero => simp [aroundAt]
    | succ k ih =>
        rw [aroundAt]
        split
        · next p hp =>
            have hp := isContainer_of_child ht (child_of_parent? hp) hk
            exact List.forall_mem_cons.mpr ⟨hp, ih hp⟩
        · simp
  exact hat t.size

omit ht in
theorem localsAt_of_isBrace (hp : (t.kind p).isBrace = false) :
    t.localsAt c p = (t.kind p).parameters?.map List.reverse := by
  rw [localsAt]
  split
  · next hk => simp [hk, Kind.isBrace] at hp
  · rfl

omit ht in
theorem localsAt_of_isContainer (hp : (t.kind p).isContainer = true) : t.localsAt c p = none := by
  rw [localsAt_of_isBrace (Kind.isBrace_of_isContainer hp), Kind.parameters?_of_isContainer hp]
  rfl

theorem locals_of_isContainer (hk : (t.kind n).isContainer = true) : t.locals n = [] := by
  refine List.filterMap_eq_nil_iff.mpr fun s hs => ?_
  exact localsAt_of_isContainer (isContainer_of_mem_around ht hk s hs)

theorem host?_of_isContainer (hk : (t.kind n).isContainer = true) : t.host? n = none := by
  have hpath : ∀ d ∈ t.path n, (t.kind d).isContainer = true := by
    refine List.forall_mem_cons.mpr ⟨hk, fun d hd => ?_⟩
    obtain ⟨s, hs, rfl⟩ := List.mem_map.mp hd
    exact isContainer_of_mem_around ht hk s hs
  refine List.find?_eq_none.mpr fun d hd => ?_
  simp [Kind.hasParameters, Kind.parameters?_of_isContainer (hpath d hd)]

theorem locals_of_member (hd : (Kind.isMember, d) ∈ (t.kind p).parts) : t.locals d = [] := by
  have hp := Kind.isContainer_of_member hd
  rw [locals_of_child ht (child_of_part hd), locals_of_isContainer ht hp,
    localsAt_of_isContainer hp]
  rfl

theorem home?_of_member (hd : (Kind.isMember, d) ∈ (t.kind p).parts)
    (hb : (t.kind d).isBinding = true) : t.home? d = some d := by
  have hchild := child_of_part hd
  have hparameters : (t.kind d).hasParameters = false := by
    rw [Kind.hasParameters, Kind.parameters?_of_isBinding hb]
    rfl
  have hhost : t.host? d = none := by
    rw [host?_of_child ht hchild hparameters,
      host?_of_isContainer ht (Kind.isContainer_of_member hd)]
  rw [host?] at hhost
  rw [home?, hhost, Option.none_or, path, List.find?_cons, hb]

theorem scope_of_body {b : NodeId} (hd : (Kind.isMember, d) ∈ (t.kind p).parts)
    (hb : b ∈ t.bodies d) {ps : List NodeId} (hps : (t.kind d).parameters? = some ps) :
    t.locals b = [ps.reverse] ∧ t.host? b = some d := by
  have hparameters : (t.kind d).hasParameters = true := by rw [Kind.hasParameters, hps]; rfl
  have hstmt := (isStmt_of_mem_bodies ht hb).1
  have hplain : (t.kind b).hasParameters = false := by
    rw [Kind.hasParameters, Kind.parameters?_of_isStmt hstmt]
    rfl
  have hlocalsAt {c : NodeId} : t.localsAt c d = some ps.reverse := by
    rw [localsAt_of_isBrace (Kind.isBrace_of_parameters? hps), hps]
    rfl
  have hlocals : t.locals d = [] := locals_of_member ht hd
  -- A body is a child of its declaration, or of one of its variants.
  have hcases : b ∈ t.children d ∨ ∃ v i f, t.kind v = .variant i f b ∧ v ∈ t.children d := by
    rw [bodies] at hb
    split at hb
    · next hk => exact .inl (by simp [children, hk, Kind.children, Option.mem_toList.mp hb])
    · next hk =>
        obtain ⟨v, hv, hvb⟩ := List.mem_filterMap.mp hb
        rw [Check.variantBody] at hvb
        split at hvb
        · next i f b' hvk =>
            cases hvb
            exact .inr ⟨v, i, f, hvk, by simp [children, hk, Kind.children, hv]⟩
        · cases hvb
    · next hk => exact .inl (by simp [children, hk, Kind.children, Option.mem_toList.mp hb])
    · next hk => exact .inl (by simp [children, hk, Kind.children, Option.mem_toList.mp hb])
    · simp at hb
  rcases hcases with hchild | ⟨v, i, f, hv, hvd⟩
  · rw [locals_of_child ht hchild, hlocalsAt, hlocals, host?_of_child ht hchild hplain,
      host?_of_hasParameters hparameters]
    exact ⟨rfl, rfl⟩
  · have hbv : b ∈ t.children v := by simp [children, hv, Kind.children]
    have hvplain : (t.kind v).hasParameters = false := by
      simp [hv, Kind.hasParameters, Kind.parameters?]
    have hnone : t.localsAt b v = none := by simp [localsAt, hv, Kind.parameters?]
    rw [locals_of_child ht hbv, hnone, locals_of_child ht hvd, hlocalsAt, hlocals,
      host?_of_child ht hbv hplain, host?_of_child ht hvd hvplain,
      host?_of_hasParameters hparameters]
    exact ⟨rfl, rfl⟩

end Hosts

section Patterns

variable {t : Tree} (ht : t.WellFormed)

include ht

theorem patternVarsAt_eq {k k' p : Nat} (hk : p < k) (hk' : p < k') :
    t.patternVarsAt k p = t.patternVarsAt k' p := by
  induction k generalizing k' p with
  | zero => omega
  | succ k ih =>
      obtain ⟨k', rfl⟩ : ∃ m, k' = m + 1 := ⟨k' - 1, by omega⟩
      have hchild {q : Nat} (hq : q ∈ t.children p) :
          t.patternVarsAt k q = t.patternVarsAt k' q := by
        have hlt : q < p := ht.child_lt p q hq
        exact ih (by omega) (by omega)
      rw [patternVarsAt, patternVarsAt]
      cases hp : t.kind p with
      | bindingPattern i how sub a => exact hchild (by simp [children, hp, Kind.children])
      | tuplePattern es =>
          simp only [List.flatMap]
          rw [List.map_congr_left fun q hq =>
            hchild (by simpa [children, hp, Kind.children] using hq)]
      | _ => rfl

theorem patternVars_eq (p : NodeId) : t.patternVars p =
    match t.kind p with
    | .bindingPattern _ _ sub _ => t.patternVars sub
    | .namePattern v => [v]
    | .tuplePattern es => es.flatMap t.patternVars
    | _ => [] := by
  have hchild {q : NodeId} (hq : q ∈ t.children p) :
      t.patternVarsAt t.size q = t.patternVars q := by
    have hlt : q < t.size := Nat.lt_trans (ht.child_lt p q hq) (lt_size_of_child hq)
    exact patternVarsAt_eq ht hlt (Nat.lt_succ_of_lt hlt)
  rw [patternVars, patternVarsAt]
  cases hp : t.kind p with
  | bindingPattern i how sub a => exact hchild (by simp [children, hp, Kind.children])
  | tuplePattern es =>
      simp only [List.flatMap]
      rw [List.map_congr_left fun q hq => hchild (by simpa [children, hp, Kind.children] using hq)]
  | _ => rfl

end Patterns

def frame (t : Tree) (vs : List NodeId) : Check.Frame :=
  vs.filterMap fun v => (t.kind v).declares.map fun x => (x.text, v)

def frames (t : Tree) (n : NodeId) : List Check.Frame := (t.locals n).map t.frame

theorem find?_frame (t : Tree) (x : String) (vs : List NodeId) :
    ((t.frame vs).find? fun p => p.1 == x).map (·.2) = vs.find? (t.isNamed x) := by
  induction vs with
  | nil => rfl
  | cons v vs ih =>
      rw [frame, List.filterMap_cons, List.find?_cons, isNamed]
      cases hv : (t.kind v).declares with
      | none => exact ih
      | some y =>
          simp only [Option.map_some, List.find?_cons]
          cases hy : y.text == x
          · exact ih
          · rfl

theorem lookupFrames_frames (t : Tree) (n : NodeId) (x : String) :
    Check.lookupFrames x (t.frames n) =
      (t.locals n).findSome? fun vs => vs.find? (t.isNamed x) := by
  rw [Check.lookupFrames, frames, List.findSome?_map]
  exact congrArg (List.findSome? · _) (funext (find?_frame t x))

theorem parameterFrame_eq (e : Check.Env) (ps : List NodeId) :
    Check.parameterFrame e ps = e.tree.frame ps.reverse := by
  rw [Check.parameterFrame, frame, List.filterMap_reverse]

def bindAll (t : Tree) (vs : List NodeId) : List Check.Frame → List Check.Frame
  | [] => []
  | f :: fs => (t.frame vs.reverse ++ f) :: fs

theorem bindAll_nil (t : Tree) (fs : List Check.Frame) : t.bindAll [] fs = fs := by
  cases fs <;> rfl

theorem bindAll_append (t : Tree) (us vs : List NodeId) (fs : List Check.Frame) :
    t.bindAll (us ++ vs) fs = t.bindAll vs (t.bindAll us fs) := by
  cases fs with
  | nil => rfl
  | cons f fs => simp [bindAll, frame]

theorem bindAll_singleton {t : Tree} {v : NodeId} {x : Name} (hv : (t.kind v).declares = some x)
    (fs : List Check.Frame) : t.bindAll [v] fs = Check.bindLocal x.text v fs := by
  cases fs with
  | nil => rfl
  | cons f fs => simp [bindAll, frame, Check.bindLocal, hv]

end Tree

end LanguageService
