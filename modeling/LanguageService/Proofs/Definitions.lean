import LanguageService.Definition
import LanguageService.Proofs.Innermost
import LanguageService.Proofs.References

namespace LanguageService

namespace Kind

def isUse : Kind → Bool
  | name _ _ => true
  | nameType _ => true
  | binary _ _ _ => true
  | call _ _ => true
  | subscriptCall _ _ => true
  | _ => false

theorem isDeclaration_of_isUse {k : Kind} (h : k.isUse = true) : k.isDeclaration = false := by
  cases k <;> first | rfl | cases h

theorem isDeclaration_of_isExpr {k : Kind} (h : k.isExpr = true) : k.isDeclaration = false := by
  cases k <;> first | rfl | cases h

theorem piece_of_members {k : Kind} {m : NodeId} (h : m ∈ k.members) :
    .part m ∈ k.pieces ∧ k.isMemberwiseInit = false ∧ k.isDeclaration = true := by
  cases k <;> simp_all [members, pieces, isMemberwiseInit, isDeclaration]

end Kind

namespace Tree

variable {t : Tree} {d : NodeId}

def Calls (t : Tree) (n callee : NodeId) : Prop :=
  ∃ args, t.kind n = .call callee args ∨ t.kind n = .subscriptCall callee args

def ComesTo (t : Tree) (n n' : NodeId) : Prop :=
  Relation.ReflTransGen t.Calls n n' ∧ ∀ callee, ¬ t.Calls n' callee

theorem definitionOf_of_declares {x : Name} (hx : (t.kind d).declares = some x) :
    t.definitionOf d = ⟨t.site d, x.site⟩ := by
  rw [definitionOf]
  cases hk : t.kind d <;> simp_all [Kind.declares]

theorem Parsed.reached_of_isDeclaration (h : t.Parsed) (hd : (t.kind d).isDeclaration = true) :
    t.Reached d := by
  refine h.reached (lt_size_of_isDeclaration hd) ?_
  cases hk : t.kind d <;> simp_all [Tree.isModule, Kind.isDeclaration]

theorem memberwiseOwner?_eq (h : t.Parsed) {introducer : Site} {x : Name} {gs ms : List NodeId}
    {ty i : NodeId} (hty : t.kind ty = .product introducer x gs ms (some i)) :
    t.memberwiseOwner? i = some ty := by
  have ht := h.wellFormed
  have howner : t.hasMemberwise i ty = true := by simp [hasMemberwise, hty]
  have hunique : ∀ d, t.hasMemberwise i d = true → d = ty := by
    intro d hd
    rw [hasMemberwise] at hd
    split at hd
    · next hk =>
        obtain rfl := eq_of_beq hd
        exact ht.parent_unique d ty i (by simp [children, hk, Kind.children])
          (by simp [children, hty, Kind.children])
    · cases hd
  obtain ⟨u, hu, hbelow⟩ := h.reached_of_isDeclaration (d := ty) (by rw [hty]; rfl)
  obtain ⟨m, hm, hum⟩ := List.mem_flatMap.mp hu
  have hmem : ty ∈ t.preorder m := by
    refine (mem_preorder ht (ht.modules_lt m hm)).mpr (.of_child ?_ hbelow)
    exact h.children_of_module hm ▸ hum
  rw [memberwiseOwner?]
  cases hfind : t.modules.findSome? fun m => (t.preorder m).find? (t.hasMemberwise i) with
  | none =>
      have hnone := List.find?_eq_none.mp (List.findSome?_eq_none_iff.mp hfind m hm) ty hmem
      exact absurd howner hnone
  | some d =>
      obtain ⟨m', -, hd⟩ := List.exists_of_findSome?_eq_some hfind
      rw [hunique d (List.find?_some hd)]

end Tree

namespace Program

structure Rests (p : Program) (d : Definition) : Prop where
  nonempty : d.selection.start < d.selection.stop
  inText : d.selection.isSynthesized = false
  file : ∃ u ∈ p.tree.units, d.selection.file = (p.tree.site u).file
  inside : d.range.Includes d.selection
  again : ∀ o, d.selection.covers d.selection.file o = true →
    p.definition? d.selection.file o = some d

/-- What stands where `n` leads: what it spells, or for a call that makes a value the word that
introduces an initializer, or the name of the type. -/
def LandsOn (p : Program) (n : NodeId) (text : String) : Prop :=
  match p.references.get? n with
  | some (.constructor _) => text = "init" ∨ ∃ ty,
      p.types.get? n = some (.metatype (.product ty)) ∧ (p.tree.kind ty).declared = some text
  | _ => (p.tree.kind n).spelled = some text

section Declarations

variable {p : Program} (h : p.tree.Parsed)
  (huris : (p.tree.units.map fun u => (p.tree.site u).file.uri).Nodup)

include h huris

theorem rests_of_word {d : NodeId} {w : Piece} (hd : (p.tree.kind d).isDeclaration = true)
    (hown : p.tree.isSynthesized d = false) (hw : w ∈ (p.tree.kind d).pieces)
    (hword : w.part? = none)
    (hdefinition : p.tree.definitionOf d = ⟨p.tree.site d, w.site p.tree⟩) :
    p.Rests (p.tree.definitionOf d) ∧ w.Spelled := by
  obtain ⟨u, hu, hbelow⟩ := h.reached_of_isDeclaration hd
  obtain ⟨hinside, hwritten⟩ := (Tree.placed_of_below h hu hbelow).written hown w hw
  have haround := Tree.includes_of_below h hu (.refl u) hbelow hown
  refine ⟨?_, hwritten.spelled⟩
  rw [hdefinition]
  refine ⟨hwritten.nonempty, hinside.isSynthesized_eq.trans hown,
    ⟨u, hu, (haround.trans hinside).file⟩, hinside, fun o ho => ?_⟩
  simp only [Site.covers, Bool.and_eq_true, decide_eq_true_eq] at ho
  dsimp only
  rw [definition?, hinside.file,
    Tree.enclosing?_eq h huris hu hbelow hown hw hword ⟨ho.1.2, ho.2⟩, Option.bind_some,
    definitionAt, if_pos hd, hdefinition]

theorem rests_of_declares {d : NodeId} {x : Name} (hx : (p.tree.kind d).declares = some x)
    (htext : ¬ p.tree.IsImplied d) : p.Rests (p.tree.definitionOf d) ∧
      (p.tree.definitionOf d).selection.text = x.text := by
  have hd := Kind.isDeclaration_of_declares hx
  obtain ⟨u, hu, hbelow⟩ := h.reached_of_isDeclaration hd
  have hdefinition := Tree.definitionOf_of_declares hx
  obtain ⟨hrests, hspelled⟩ := rests_of_word h huris hd (Tree.own_of_declares h hu hbelow hx htext)
    (Kind.name_mem_of_declares hx) rfl hdefinition
  exact ⟨hrests, by rw [hdefinition]; exact hspelled.1⟩

theorem rests_of_members {q i : NodeId} (hi : i ∈ (p.tree.kind q).members)
    (hinit : (p.tree.kind i).isExplicitInit = true) : p.Rests (p.tree.initializerDefinition i) ∧
      (p.tree.initializerDefinition i).selection.text = "init" := by
  obtain ⟨hpart, hplain, hq⟩ := Kind.piece_of_members hi
  obtain ⟨u, hu, hbelow⟩ := h.reached_of_isDeclaration hq
  have hown := Tree.own_of_part h hu hbelow hplain hpart
  cases hk : p.tree.kind i with
  | init introducer ps body memberwise =>
      have hdefinition : p.tree.definitionOf i = ⟨p.tree.site i, introducer⟩ := by
        simp [Tree.definitionOf, hk]
      obtain ⟨hrests, hspelled⟩ := rests_of_word h huris (d := i) (w := .word introducer "init")
        (by simp [hk, Kind.isDeclaration]) hown (by simp [hk, Kind.pieces]) rfl hdefinition
      have hsite : (p.tree.site i).isSynthesized = false := hown
      rw [Tree.initializerDefinition, if_neg (Bool.eq_false_iff.mp hsite)]
      exact ⟨hrests, by rw [hdefinition]; exact hspelled⟩
  | _ => simp [hk, Kind.isExplicitInit] at hinit

theorem rests_of_initializes {extended : Table Owner} {ty i : NodeId}
    (hi : p.tree.Initializes extended ty i) : p.Rests (p.tree.initializerDefinition i) ∧
      ((p.tree.initializerDefinition i).selection.text = "init" ∨ (p.tree.kind ty).declared =
        some (p.tree.initializerDefinition i).selection.text) := by
  cases hi with
  | @memberwise introducer x gs ms hty =>
      obtain ⟨u, hu, hbelow⟩ := h.reached_of_isDeclaration (d := ty) (by rw [hty]; rfl)
      have hhidden : (p.tree.site i).isSynthesized = true := by
        refine (Tree.placed_of_below h hu hbelow).hidden i ?_ (.inr ?_)
        · simp [Tree.children, hty, Kind.children]
        · simp [hty, Kind.extras]
      have hx : (p.tree.kind ty).declares = some x := by rw [hty]; rfl
      obtain ⟨hrests, hspelled⟩ := rests_of_declares h huris hx
        (Tree.not_isImplied h.wellFormed (by rw [hty]; rfl))
      rw [Tree.initializerDefinition, if_pos hhidden, Tree.memberwiseOwner?_eq h hty]
      exact ⟨hrests, .inr (by rw [hspelled, Kind.declared, hx, Option.map_some])⟩
  | declared hmember hinit =>
      obtain ⟨hrests, hspelled⟩ := rests_of_members h huris hmember hinit
      exact ⟨hrests, .inl hspelled⟩
  | extended _ hmember hinit =>
      obtain ⟨hrests, hspelled⟩ := rests_of_members h huris hmember hinit
      exact ⟨hrests, .inl hspelled⟩

theorem rests_of_referred {n : NodeId} {d : Definition}
    (hpoints : ∀ r, p.references.get? n = some r → p.Points n r ∧ r.InText p.tree)
    (hd : p.referred n = some d) : p.Rests d ∧ p.LandsOn n d.selection.text := by
  have hnamed {i : NodeId} {text : String} (hspelled : (p.tree.kind n).spelled = some text)
      (hdeclared : (p.tree.kind i).declared = some text) (htext : ¬ p.tree.IsImplied i) :
      p.Rests (p.tree.definitionOf i) ∧
        (p.tree.kind n).spelled = some (p.tree.definitionOf i).selection.text := by
    obtain ⟨x, hx, rfl⟩ := Option.map_eq_some_iff.mp hdeclared
    obtain ⟨hrests, heq⟩ := rests_of_declares h huris hx htext
    exact ⟨hrests, hspelled.trans (congrArg some heq.symm)⟩
  rw [referred] at hd
  rw [LandsOn]
  cases href : p.references.get? n with
  | none => simp [href] at hd
  | some r =>
      obtain ⟨hpoint, htext⟩ := hpoints r href
      rw [href] at hd
      cases r with
      | direct i =>
          cases hd
          obtain ⟨x, hspelled, hdeclared⟩ := hpoint
          exact hnamed hspelled hdeclared htext
      | member i =>
          cases hd
          obtain ⟨x, hspelled, hdeclared⟩ := hpoint
          exact hnamed hspelled hdeclared htext
      | constructor i =>
          cases hd
          obtain ⟨_, _, _, _, ty, _, _, htype, -, hinitializes⟩ := hpoint
          obtain ⟨hrests, hlands⟩ := rests_of_initializes h huris hinitializes
          exact ⟨hrests, hlands.imp_right fun hdeclared => ⟨ty, htype, hdeclared⟩⟩
      | builtin w => cases hd

end Declarations

theorem referred_of_definitionAt {p : Program} (ht : p.tree.WellFormed) {fuel : Nat} {n : NodeId}
    {d : Definition} (hn : (p.tree.kind n).isDeclaration = false)
    (hd : p.definitionAt fuel n = some d) :
    ∃ n', p.tree.ComesTo n n' ∧ p.referred n' = some d := by
  induction fuel generalizing n with
  | zero => cases hd
  | succ fuel ih =>
      have hcallee {callee : NodeId} (hcalls : p.tree.Calls n callee)
          (hpart : (Kind.isExpr, callee) ∈ (p.tree.kind n).parts)
          (hd : p.definitionAt fuel callee = some d) :
          ∃ n', p.tree.ComesTo n n' ∧ p.referred n' = some d := by
        obtain ⟨n', ⟨hcalls', hlast⟩, href⟩ :=
          ih (Kind.isDeclaration_of_isExpr (ht.fits n _ hpart)) hd
        exact ⟨n', ⟨.head hcalls hcalls', hlast⟩, href⟩
      rw [definitionAt, if_neg (Bool.eq_false_iff.mp hn)] at hd
      cases hk : p.tree.kind n with
      | call callee args =>
          exact hcallee ⟨args, .inl hk⟩ (by simp [hk, Kind.parts]) (by simpa [hk] using hd)
      | subscriptCall callee args =>
          exact hcallee ⟨args, .inr hk⟩ (by simp [hk, Kind.parts]) (by simpa [hk] using hd)
      | name domain x => exact ⟨n, ⟨.refl, by simp [Tree.Calls, hk]⟩, by simpa [hk] using hd⟩
      | nameType x => exact ⟨n, ⟨.refl, by simp [Tree.Calls, hk]⟩, by simpa [hk] using hd⟩
      | binary l op r => exact ⟨n, ⟨.refl, by simp [Tree.Calls, hk]⟩, by simpa [hk] using hd⟩
      | _ => simp [hk] at hd

end Program

namespace Check

variable {t : Tree}

/-- In an accepted program whose files have different names, from what is written where something is
used one is led to a word or a name in the text, that of what is called in the end, and from every
place in it one is led there again. -/
theorem definition_rests (h : t.Parsed)
    (huris : (t.units.map fun u => (t.site u).file.uri).Nodup) {p : Program}
    (hcheck : typeCheck t = .ok p) {f : File} {o : Nat} {n : NodeId}
    (hn : t.enclosing? f o = some n) (huse : (t.kind n).isUse = true) {d : Definition}
    (hd : p.definition? f o = some d) :
    p.Rests d ∧ ∃ n', t.ComesTo n n' ∧ p.LandsOn n' d.selection.text := by
  obtain ⟨s, hfinal, -, -⟩ := final_lexical h
  obtain ⟨-, rfl⟩ := eq_program_of_typeCheck hfinal hcheck
  have hinvariant := (final_spec h.wellFormed hfinal).1
  have hat : (s.program t).definitionAt (t.size + 1) n = some d := by
    rwa [Program.definition?, show (s.program t).tree.enclosing? f o = some n from hn] at hd
  obtain ⟨n', hcalls, href⟩ := Program.referred_of_definitionAt (p := s.program t) h.wellFormed
    (Kind.isDeclaration_of_isUse huse) hat
  obtain ⟨hrests, hlands⟩ := Program.rests_of_referred (p := s.program t) h huris
    (fun r hr => ⟨hinvariant.points n' r hr, hinvariant.inText n' r hr⟩) href
  exact ⟨hrests, n', hcalls, hlands⟩

def travelDocument : File :=
  .document "file:///main.orca" "
    type Point \x7b var x: Int \x7d
    extension Point \x7b init() \x7b \x7d \x7d
    fun far(p: Point) -> Int \x7b return p.x \x7d
    fun run() -> Int \x7b
      let p = Point(1)
      return far(Point()) + far(p)
    \x7d"

def ledFrom (t : Tree) (p : Program) (f : File) (o : Nat) : Option Nat :=
  (t.enclosing? f o).bind fun n =>
    if (t.kind n).isUse then (p.definition? f o).map (·.selection.start) else none

/-- Where one is led from offsets of a file that is accepted alone, and whether the files that there
are then have different names. -/
def journeys (f : File) (os : List Nat) : Option (Bool × List (Option Nat)) :=
  match Tree.parseModule .empty "main" [f] with
  | .error _ => none
  | .ok t =>
      match typeCheck t with
      | .error _ => none
      | .ok p => some (decide ((t.units.map fun u => (t.site u).file.uri).Nodup),
          os.map (ledFrom t p f))

set_option maxRecDepth 4000 in
theorem travelDocument_rests : ∃ t p, Tree.parseModule .empty "main" [travelDocument] = .ok t ∧
    typeCheck t = .ok p ∧
    ∀ q ∈ [(45, 10), (105, 22), (147, 10), (173, 53), (180, 74), (188, 143)], ∃ n d,
      t.enclosing? travelDocument q.1 = some n ∧ (t.kind n).isUse = true ∧
      p.definition? travelDocument q.1 = some d ∧ d.selection.start = q.2 ∧ p.Rests d ∧
      ∃ n', t.ComesTo n n' ∧ p.LandsOn n' d.selection.text := by
  have hrun : journeys travelDocument [45, 105, 147, 173, 180, 188] =
      some (true, [some 10, some 22, some 10, some 53, some 74, some 143]) := by
    rw [journeys, Tree.parseModule, Tree.parseUnits, Tree.parseUnit,
      Layout.ofFile_of_text travelDocument rfl]
    decide +kernel
  rw [journeys] at hrun
  cases hparse : Tree.parseModule .empty "main" [travelDocument] with
  | error e => simp [hparse] at hrun
  | ok t =>
      cases hcheck : typeCheck t with
      | error e => simp [hparse, hcheck] at hrun
      | ok p =>
          simp only [hparse, hcheck, Option.some.injEq, Prod.mk.injEq, decide_eq_true_eq,
            List.map_cons, List.map_nil, List.cons.injEq, and_true] at hrun
          obtain ⟨huris, hleds⟩ := hrun
          have hled (q : Nat × Nat) (hq : q ∈ [(45, 10), (105, 22), (147, 10), (173, 53), (180, 74),
              (188, 143)]) : ledFrom t p travelDocument q.1 = some q.2 := by
            simp only [List.mem_cons, List.not_mem_nil, or_false] at hq
            rcases hq with rfl | rfl | rfl | rfl | rfl | rfl <;> simp [hleds]
          refine ⟨t, p, rfl, hcheck, fun q hq => ?_⟩
          obtain ⟨n, hn, hfound⟩ := Option.bind_eq_some_iff.mp (hled q hq)
          obtain ⟨huse, hfound⟩ := Option.ite_none_right_eq_some.mp hfound
          obtain ⟨d, hd, hstart⟩ := Option.map_eq_some_iff.mp hfound
          exact ⟨n, d, hn, huse, hd, hstart,
            definition_rests (.module .empty hparse) huris hcheck hn huse hd⟩

end Check

end LanguageService
