import LanguageService.Proofs.Outward
import LanguageService.Proofs.Soundness
import LanguageService.Proofs.Subjects

/-!
A memberwise initializer takes what is stored: in an accepted program the arguments of a
construction are compared with the types of the stored variables, unless these are worked out from
that initializer.
-/
namespace LanguageService.Check

open Declarations

variable {t : Tree} {opened : NodeId → Prop} {s : State}

theorem exists_bindsOutside (h : t.Parsed) {p v : NodeId}
    (hv : storedFor ⟨t, .ofTree t⟩ p = some v) : ∃ b, t.BindsOutside b v := by
  obtain ⟨vs, haccounts⟩ := exists_accounts h
  obtain ⟨owner, hv⟩ := exists_storedOf hv
  obtain ⟨w, hw, hbinds⟩ := haccounts.binds_of_mem_storedOf h.wellFormed hv
  obtain ⟨b, hb⟩ := Option.ne_none_iff_exists'.mp (haccounts.bound h.wellFormed hw hbinds)
  have hbound := (bounded_ofTree h.wellFormed).binds v b hb
  obtain ⟨q, j, hk, -, hvar⟩ := id hbound
  exact ⟨b, hb, by simp [hk, Kind.isBinding], hvar, hbound.below⟩

section Implied

variable (hinv : Invariant t opened s) (h : t.Parsed) {i p a : NodeId} {introducer : Site}
  {ps : List NodeId} {body : Option NodeId} (hi : t.kind i = .init introducer ps body true)
  (hp : p ∈ ps)

include hinv h hi hp

/-- Only its initializer needs a parameter that nobody has written. -/
theorem eq_of_needs_implied (hneeds : t.Needs s.references a p) : a = i := by
  have ht := h.wellFormed
  have hpart : (Kind.isParameter, p) ∈ (t.kind i).parts := by simp [hi, Kind.parts, hp]
  have hparameter := ht.fits i _ hpart
  have himplied : t.IsImplied p := ⟨i, introducer, ps, body, hi, hp⟩
  cases hneeds with
  | parameter hpa _ => exact ht.parent_unique _ _ p hpa (Tree.child_of_part hpart)
  | stored hv =>
      obtain ⟨b, hb⟩ := exists_bindsOutside h hv
      simp [Kind.isParameter_of_isVar hb.isVar] at hparameter
  | bound hb =>
      obtain ⟨q, j, hk, -⟩ := (bounded_ofTree ht).binds a p hb
      simp [hk, Kind.isParameter] at hparameter
  | mention _ _ _ hmention =>
      cases hmention with
      | direct href => exact absurd himplied (hinv.inText _ _ href)
      | member href => exact absurd himplied (hinv.inText _ _ href)
      | constructed href =>
          obtain ⟨_, _, _, _, _, -, -, -, -, hinits⟩ := hinv.points _ _ href
          obtain ⟨_, _, _, _, hk⟩ := hinits.exists_init ht
          change t.kind p = _ at hk
          simp [hk, Kind.isParameter] at hparameter
      | replaced _ _ _ htext => exact absurd himplied htext
      | indexed _ hd =>
          obtain ⟨vs, haccounts⟩ := exists_accounts h
          obtain ⟨-, -, -, -, hsubscript⟩ := ((haccounts.subscriptsOf h _).2 p).mp hd
          cases hk : t.kind p <;> simp [hk, Kind.isParameter, Kind.isSubscript] at *

theorem isCircular_of_parameter (hcircular : t.IsCircular s.references p) :
    t.IsCircular s.references i := by
  obtain ⟨a, hpa, hneeds⟩ := Relation.TransGen.tail'_iff.mp hcircular
  obtain rfl := eq_of_needs_implied hinv h hi hp hneeds
  exact .head' hneeds hpa

end Implied

theorem reached_of_constructed (h : t.Parsed) {d c i : NodeId} {introducer : Site} {x : Name}
    {gs ms : List NodeId} (hk : t.kind d = .product introducer x gs ms (some i))
    (hi : i ∈ (ofTree t).initializersOf c) : Reached t (ofTree t) d := by
  obtain ⟨vs, haccounts⟩ := exists_accounts h
  obtain ⟨n, hn, hscope, hmember, -⟩ := ((haccounts.initializersOf h c).2 i).mp hi
  have hmodule : t.isModule n = false := by
    by_contra hmodule
    rw [scopeOf_of_isModule (by simpa using hmodule)] at hscope
    simp at hscope
  have hchild := (Tree.membersOf_sublist hmodule).subset hmember
  rwa [h.wellFormed.parent_unique d n i (by simp [Tree.children, hk, Kind.children]) hchild]

/-- Memberwise construction is checked: if a program is accepted, then wherever a type is
constructed by its memberwise initializer, there are as many arguments as stored variables, and
each is compatible with its variable. What is asked is that the initializer does not need itself. -/
theorem construction_checked {base t : Tree} {name : String} {files : List File} {p : Program}
    (hbase : base.Parsed) (hparse : Tree.parseModule base name files = .ok t)
    (hcheck : typeCheck t = .ok p) {u n : NodeId} (hu : u ∈ t.units)
    (hown : t.isInherited u = false) (hn : t.Below u n) {callee : NodeId}
    {args : List (Option Name × NodeId)} {i : NodeId} (hcall : t.kind n = .call callee args)
    (href : p.references.get? callee = some (.constructor i)) {d : NodeId} {introducer : Site}
    {x : Name} {gs ms : List NodeId} (hd : t.kind d = .product introducer x gs ms (some i))
    (hi : ¬ p.IsCircular i) :
    List.Forall₂ (fun a v => ∃ found stored, p.types.get? a.2 = some found ∧
      p.types.get? v = some stored ∧ found.compatible stored = true) args
        ((ofTree t).storedOf d) := by
  have h : t.Parsed := .module hbase hparse
  have ht := h.wellFormed
  obtain ⟨s, hfinal, hclean, rfl⟩ := exists_final_of_typeCheck hcheck
  have hinv := (final_spec ht hfinal).1
  obtain ⟨c, inputs, output, hmem, hty, hargs⟩ :=
    ((final_lawful ht hfinal hclean hu hown hn).constructs callee args i hcall href).resolve_left hi
  obtain ⟨ps, hinit, hstored⟩ := memberwise_represents h (reached_of_constructed h hd hmem) hd
  obtain ⟨ts, output', heq, htakes⟩ := hinv.inputs i _ ps _ _ _ hinit hty
  cases heq
  -- What the initializer takes is what the variables are, as none of its parameters needs itself.
  have hknown : List.Forall₂ (fun a v => s.types.get? v = some a) inputs
      ((ofTree t).storedOf d) := by
    refine forall₂_comp ?_ htakes.flip ((List.forall₂_and_left _ _).mpr ⟨fun p hp => hp, hstored⟩)
    rintro a p v htake ⟨hp, ⟨y, -, hk⟩, hv⟩
    have hnot : ¬ t.IsCircular s.references p := fun hcircular =>
      hi (isCircular_of_parameter hinv h hinit hp hcircular)
    obtain ⟨b, hb⟩ := exists_bindsOutside h hv
    have hsets : t.Sets p v b := ⟨⟨_, hk⟩, hv, hb⟩
    exact ((hinv.stored p v b a hsets (htake.resolve_left hnot)).resolve_left hnot).1
  refine forall₂_comp ?_ hargs hknown
  rintro arg a v ⟨found, hfound, hcompatible⟩ hv
  exact ⟨found, a, hfound, hv, hcompatible⟩

variable {e : Env} {refs : Table Reference} {reached : List NodeId} {a b i n : NodeId}

def mentioned (e : Env) (refs : Table Reference) (n : NodeId) : List NodeId :=
  (match refs.get? n with
    | some (.direct d) | some (.member d) => [d]
    | some (.constructor d) =>
        d :: (List.range e.tree.size).filter fun c =>
          (e.tree.kind n).spelled == (e.tree.kind c).declared
    | _ => []) ++
  match e.tree.kind n with
  | .subscriptCall _ _ => e.decls.subscripts.map (·.2)
  | _ => []

/-- What stands in a node, and what may be asked for if the node is. -/
def onward (e : Env) (refs : Table Reference) (a : NodeId) : List NodeId :=
  e.tree.children a ++ (storedFor e a).toList ++ (e.decls.bindings.get? a).toList ++
    if (e.tree.kind a).isExpr then mentioned e refs a else []

def onwardFrom (e : Env) (refs : Table Reference) : Nat → List NodeId → List NodeId
  | 0, reached => reached
  | fuel + 1, reached => onwardFrom e refs fuel (reached.flatMap (onward e refs) ∪ reached)

/-- Whether a node is not among what is reached from it within `fuel` steps, and there is no more to
be reached. -/
def isStraight (e : Env) (refs : Table Reference) (fuel : Nat) (i : NodeId) : Bool :=
  let reached := onwardFrom e refs fuel (onward e refs i)
  !reached.contains i && (i :: reached).all fun a => (onward e refs a).all reached.contains

theorem mem_mentioned (hdecls : e.decls = .ofTree e.tree) (h : e.tree.Mentions refs n b) :
    b ∈ mentioned e refs n := by
  rw [mentioned]
  cases h with
  | direct href => simp [href]
  | member href => simp [href]
  | constructed href => simp [href]
  | replaced href hspelled hdeclared _ =>
      have hlt := Tree.lt_size_of_isDeclaration (Kind.isDeclaration_of_declared hdeclared)
      simp [href, hspelled, hdeclared, hlt]
  | indexed hk hd =>
      rw [Declarations.subscriptsOf, ← hdecls, Declarations.mem_lookup] at hd
      simp only [hk]
      exact List.mem_append_right _ (List.mem_map_of_mem (f := (·.2)) hd)

theorem mem_of_needs (hdecls : e.decls = .ofTree e.tree)
    (hclosed : ∀ a ∈ reached, ∀ b ∈ onward e refs a, b ∈ reached)
    (ha : ∀ b ∈ onward e refs a, b ∈ reached) (h : e.tree.Needs refs a b) : b ∈ reached := by
  have hbelow {c n : NodeId} (hc : c ∈ reached) (hn : e.tree.Below c n) : n ∈ reached := by
    induction hn with
    | refl => exact hc
    | tail _ hchild ih => exact hclosed _ ih _ (by simp [onward, hchild])
  cases h with
  | parameter hchild _ => exact ha b (by simp [onward, hchild])
  | stored hv => exact ha b (by simp [onward, storedFor, hdecls, ← hv])
  | bound hb => exact ha b (by simp [onward, hdecls, hb])
  | mention _ hn hexpr hmention =>
      have hmem := mem_mentioned hdecls hmention
      rcases Tree.below_iff.mp hn with rfl | ⟨c, hc, hn⟩
      · exact ha b (by simp [onward, hexpr, hmem])
      · refine hclosed _ (hbelow (ha c (by simp [onward, hc])) hn) b ?_
        simp [onward, hexpr, hmem]

theorem not_isCircular_of_isStraight (hdecls : e.decls = .ofTree e.tree) {fuel : Nat}
    (h : isStraight e refs fuel i = true) : ¬ e.tree.IsCircular refs i := by
  simp only [isStraight, Bool.and_eq_true, Bool.not_eq_true', List.all_eq_true,
    List.contains_iff_mem, List.mem_cons, forall_eq_or_imp] at h
  obtain ⟨hi, hfirst, hclosed⟩ := h
  intro hcircular
  obtain ⟨b, hneeds, hrest⟩ := Relation.TransGen.head'_iff.mp hcircular
  have hend {c : NodeId} (hc : Relation.ReflTransGen (e.tree.Needs refs) b c) :
      c ∈ onwardFrom e refs fuel (onward e refs i) := by
    induction hc with
    | refl => exact mem_of_needs hdecls hclosed hfirst hneeds
    | tail _ hneeds ih => exact mem_of_needs hdecls hclosed (hclosed _ ih) hneeds
  simpa using hi.symm.trans (List.contains_iff_mem.mpr (hend hrest))

/-- The type of the first variable is that of a value further below, and it is not known before the
type is constructed. -/
def fractionDocument : File :=
  .document "file:///main.orca" "
    fun half() -> Fraction \x7b return Fraction(1, true) \x7d
    type Fraction \x7b
      var whole = least
      var exact: Bool
    \x7d
    let least: Int = 0"

def fractionRuns (t : Tree) (p : Program) (n d : NodeId) : Bool :=
  match t.kind n, t.kind d with
  | .call callee args, .product _ _ _ _ (some i) => args.length == 2 &&
      (match p.references.get? callee with
        | some (.constructor j) => j == i
        | _ => false) && isStraight ⟨t, .ofTree t⟩ p.references 7 i
  | _, _ => false

set_option maxRecDepth 4000 in
theorem fractionDocument_checked : ∃ t p n callee args d introducer x gs ms i,
    Tree.parseModule .empty "main" [fractionDocument] = .ok t ∧ typeCheck t = .ok p ∧
      t.kind n = .call callee args ∧ args.length = 2 ∧
      p.references.get? callee = some (.constructor i) ∧
      t.kind d = .product introducer x gs ms (some i) ∧ ¬ p.IsCircular i ∧
      List.Forall₂ (fun a v => ∃ found stored, p.types.get? a.2 = some found ∧
        p.types.get? v = some stored ∧ found.compatible stored = true) args
          ((ofTree t).storedOf d) := by
  have hrun : (Tree.parseModule .empty "main" [fractionDocument]).toOption.any (fun t =>
      (typeCheck t).toOption.any fun p => t.units.all (fun u => !t.isInherited u) &&
        (List.range t.size).any fun n => (List.range t.size).any (fractionRuns t p n)) = true := by
    rw [Tree.parseModule, Tree.parseUnits, Tree.parseUnit,
      Layout.ofFile_of_text fractionDocument rfl]
    decide +kernel
  obtain ⟨t, hparse, hrun⟩ := exists_ok_of_any hrun
  obtain ⟨p, hcheck, hrun⟩ := exists_ok_of_any hrun
  obtain ⟨s, -, -, rfl⟩ := exists_final_of_typeCheck hcheck
  simp only [Bool.and_eq_true, List.all_eq_true, List.any_eq_true, Bool.not_eq_true',
    List.mem_range] at hrun
  obtain ⟨howns, n, hn, d, -, hrun⟩ := hrun
  rw [fractionRuns] at hrun
  split at hrun
  · next callee args introducer x gs ms i hcall hd =>
      simp only [Bool.and_eq_true, beq_iff_eq] at hrun
      obtain ⟨⟨hlength, href⟩, hstraight⟩ := hrun
      split at href
      · next j href' =>
          obtain rfl := beq_iff_eq.mp href
          have hcircular : ¬ Program.IsCircular (s.program t) j :=
            not_isCircular_of_isStraight (e := ⟨t, .ofTree t⟩) rfl hstraight
          obtain ⟨u, hu, hbelow⟩ := Tree.Parsed.reached (.module .empty hparse) hn
            (by simp [Tree.isModule, hcall])
          exact ⟨t, _, n, callee, args, d, introducer, x, gs, ms, j, hparse, hcheck, hcall, hlength,
            href', hd, hcircular, construction_checked .empty hparse hcheck hu (howns u hu) hbelow
              hcall href' hd hcircular⟩
      · cases href
  · cases hrun

/-- The types of the arguments and those of the stored variables at a memberwise construction where
they do not match. -/
def mismatch? (p : Program) (n : NodeId) : Option (List String × List String) := do
  let .call callee args := p.tree.kind n | none
  let .constructor i ← p.references.get? callee | none
  let d ← (Declarations.ofTree p.tree).parents.get? i
  let .product _ _ _ _ (some m) := p.tree.kind d | none
  let found := args.map fun a => (p.types.get? a.2).getD .error
  let stored := ((Declarations.ofTree p.tree).storedOf d).map fun v => (p.types.get? v).getD .error
  if i = m ∧ (found.length ≠ stored.length ∨ Ty.compatibleList found stored = false) then
    some (found.map (·.describe p.tree), stored.map (·.describe p.tree))
  else none

def mismatches (text : String) : Option (List (List String × List String)) :=
  match Tree.parseModule .empty "main" [.document "file:///main.orca" text] with
  | .error _ => none
  | .ok t => (typeCheck t).toOption.map fun p => (List.range t.size).filterMap (mismatch? p)

/-- What is constructed where the type of a stored variable is worked out is not compared with it,
and if that is for the initializer, the arguments are not even counted. -/
theorem construction_unchecked :
    (∃ text, mismatches text = some [(["String"], ["A"])]) ∧
      ∃ text, mismatches text = some [(["Int", "Int", "Int"], ["A"])] := by
  refine ⟨⟨"type A \x7b var x: A = A(\"s\") \x7d\n", ?_⟩, "
    fun make() -> A \x7b return make() \x7d
    let a = A(make());
    type A \x7b var x = A(1, 2, 3) \x7d", ?_⟩
  · decide +kernel
  · decide +kernel

end LanguageService.Check
