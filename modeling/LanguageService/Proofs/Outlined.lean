import LanguageService.Proofs.OutlineMarks

/-!
The outline of a document lists each declaration once, those in bodies apart, and no other tree of
symbols does so. Nothing is left out, because names stand inside of what they are declared by.
-/
namespace LanguageService

namespace Symbol

structure Nests (s : Symbol) : Prop where
  selection : s.range.Includes s.selection
  solid : s.selection.start < s.selection.stop
  children : ∀ c ∈ s.children, s.range.Includes c.range

theorem preorders_map_leaf {f : Name → Symbol} (h : ∀ x, (f x).children = []) (xs : List Name) :
    preorders (xs.map f) = xs.map f := by
  induction xs with
  | nil => rfl
  | cons x xs ih =>
      rw [List.map_cons, ← List.singleton_append, preorders_append, preorders_singleton, h, ih,
        preorders]

end Symbol

namespace Tree

inductive BoundNames (t : Tree) : List NodeId → List Name → Prop where
  | nil : BoundNames t [] []
  | name {p v : NodeId} {x : Name} {ps : List NodeId} {xs : List Name}
      (hp : t.kind p = .namePattern v) (hv : t.kind v = .var x) (hrest : BoundNames t ps xs) :
      BoundNames t (p :: ps) (x :: xs)
  | wildcard {p : NodeId} {ps : List NodeId} {xs : List Name} (hp : t.kind p = .wildcard)
      (hrest : BoundNames t ps xs) : BoundNames t (p :: ps) xs
  | tuple {p : NodeId} {es ps : List NodeId} {xs ys : List Name}
      (hp : t.kind p = .tuplePattern es) (hes : BoundNames t es xs) (hrest : BoundNames t ps ys) :
      BoundNames t (p :: ps) (xs ++ ys)

structure Heading where
  name : String
  detail : Option String
  kind : SymbolKind
  selection : Site
  members : List NodeId
  ofType : Bool

def heading? (t : Tree) (inType : Bool) (d : NodeId) : Option Heading :=
  match t.kind d with
  | .space _ x ms => some ⟨x.text, none, .space, x.site, ms, false⟩
  | .product _ x _ ms _ => some ⟨x.text, none, .struct, x.site, ms, true⟩
  | .extension _ subject ms =>
      some ⟨(t.site subject).text, some "extension", .space, t.site subject, ms, true⟩
  | .conformance _ subject traits ms =>
      some ⟨t.conformanceTitle subject traits, some "conformance", .space, t.site subject, ms, true⟩
  | .trait _ x ms => some ⟨x.text, none, .interface, x.site, ms, true⟩
  | .associated _ x => some ⟨x.text, none, .typeParameter, x.site, [], true⟩
  | .typeAlias _ x aliased =>
      some ⟨x.text, some (t.site aliased).text, .typeAlias, x.site, [], true⟩
  | .operator _ _ fixitySite x => some ⟨x.text, some fixitySite.text, .operator, x.site, [], true⟩
  | .function _ x _ _ _ _ =>
      some ⟨x.text, none, if inType then .method else .function, x.site, [], true⟩
  | .method _ x _ _ _ _ => some ⟨x.text, none, .method, x.site, [], true⟩
  | .init introducer _ _ _ => some ⟨"init", none, .constructor, introducer, [], true⟩
  | .subscript _ (some x) _ _ _ => some ⟨x.text, some "subscript", .method, x.site, [], true⟩
  | .subscript introducer none _ _ _ => some ⟨"subscript", none, .method, introducer, [], true⟩
  | _ => none

/-- The symbols of declarations in their order: one for each that is not synthesized, with those of
its members below it, and one for each variable of a binding. -/
inductive Outlines (t : Tree) : Bool → List NodeId → List Symbol → Prop where
  | nil {inType : Bool} : Outlines t inType [] []
  | hidden {inType : Bool} {d : NodeId} {ds : List NodeId} {ss : List Symbol}
      (hd : t.isSynthesized d = true) (hrest : Outlines t inType ds ss) :
      Outlines t inType (d :: ds) ss
  | entry {inType : Bool} {d : NodeId} {ds : List NodeId} {h : Heading} {cs ss : List Symbol}
      (hd : t.isSynthesized d = false) (hheading : t.heading? inType d = some h)
      (hmembers : Outlines t h.ofType h.members cs) (hrest : Outlines t inType ds ss) :
      Outlines t inType (d :: ds) (.mk h.name h.detail h.kind (t.site d) h.selection cs :: ss)
  | vars {inType : Bool} {d p sub : NodeId} {e a : Option NodeId} {i : Site} {how : Introducer}
      {ds : List NodeId} {xs : List Name} {ss : List Symbol} (hd : t.isSynthesized d = false)
      (hbinding : t.kind d = .binding p e) (hp : t.kind p = .bindingPattern i how sub a)
      (hxs : t.BoundNames [sub] xs) (hrest : Outlines t inType ds ss) :
      Outlines t inType (d :: ds)
        (xs.map (fun x => .mk x.text none (if inType then .field else .var) (t.site d) x.site []) ++
          ss)

variable {t : Tree}

theorem BoundNames.append {ps qs : List NodeId} {xs ys : List Name} (h : t.BoundNames ps xs)
    (h' : t.BoundNames qs ys) : t.BoundNames (ps ++ qs) (xs ++ ys) := by
  induction h with
  | nil => exact h'
  | name hp hv _ ih => exact .name hp hv ih
  | wildcard hp _ ih => exact .wildcard hp ih
  | tuple hp hes _ _ ih =>
      rw [List.append_assoc]
      exact .tuple hp hes ih

theorem BoundNames.flatMap {f : NodeId → List Name} {ps : List NodeId}
    (h : ∀ p ∈ ps, t.BoundNames [p] (f p)) : t.BoundNames ps (ps.flatMap f) := by
  induction ps with
  | nil => exact .nil
  | cons p ps ih =>
      exact (h p List.mem_cons_self).append (ih fun q hq => h q (List.mem_cons_of_mem p hq))

theorem BoundNames.unique {ps : List NodeId} {xs ys : List Name} (h : t.BoundNames ps xs)
    (h' : t.BoundNames ps ys) : xs = ys := by
  induction h generalizing ys with
  | nil =>
      cases h'
      rfl
  | name hp hv _ ih =>
      cases h' with
      | name hp' hv' hrest' =>
          obtain rfl := Kind.namePattern.inj (hp.symm.trans hp')
          obtain rfl := Kind.var.inj (hv.symm.trans hv')
          rw [ih hrest']
      | wildcard hp' => simp [hp] at hp'
      | tuple hp' => simp [hp] at hp'
  | wildcard hp _ ih =>
      cases h' with
      | name hp' => simp [hp] at hp'
      | wildcard hp' hrest' => exact ih hrest'
      | tuple hp' => simp [hp] at hp'
  | tuple hp _ _ ihes ihrest =>
      cases h' with
      | name hp' => simp [hp] at hp'
      | wildcard hp' => simp [hp] at hp'
      | tuple hp' hes' hrest' =>
          obtain rfl := Kind.tuplePattern.inj (hp.symm.trans hp')
          rw [ihes hes', ihrest hrest']

theorem Outlines.append {inType : Bool} {ds ds' : List NodeId} {ss ss' : List Symbol}
    (h : t.Outlines inType ds ss) (h' : t.Outlines inType ds' ss') :
    t.Outlines inType (ds ++ ds') (ss ++ ss') := by
  induction h with
  | nil => exact h'
  | hidden hd _ ih => exact .hidden hd (ih h')
  | entry hd hheading hmembers _ _ ih => exact .entry hd hheading hmembers (ih h')
  | vars hd hbinding hp hxs _ ih =>
      rw [List.append_assoc]
      exact .vars hd hbinding hp hxs (ih h')

theorem Outlines.flatMap {inType : Bool} {f : NodeId → List Symbol} {ds : List NodeId}
    (h : ∀ d ∈ ds, t.Outlines inType [d] (f d)) : t.Outlines inType ds (ds.flatMap f) := by
  induction ds with
  | nil => exact .nil
  | cons d ds ih =>
      exact (h d List.mem_cons_self).append (ih fun x hx => h x (List.mem_cons_of_mem d hx))

theorem BoundNames.exists_below {ps : List NodeId} {xs : List Name} (h : t.BoundNames ps xs)
    {x : Name} (hx : x ∈ xs) : ∃ p ∈ ps, ∃ v, t.Below p v ∧ t.kind v = .var x := by
  induction h with
  | nil => cases hx
  | @name p v y ps xs hp hv _ ih =>
      rcases List.mem_cons.mp hx with rfl | hx
      · exact ⟨p, List.mem_cons_self, v, below_child (by simp [children, hp, Kind.children]), hv⟩
      · obtain ⟨q, hq, hbelow⟩ := ih hx
        exact ⟨q, List.mem_cons_of_mem p hq, hbelow⟩
  | wildcard _ _ ih =>
      obtain ⟨q, hq, hbelow⟩ := ih hx
      exact ⟨q, List.mem_cons_of_mem _ hq, hbelow⟩
  | @tuple p es ps xs ys hp _ _ ihes ihrest =>
      rcases List.mem_append.mp hx with hx | hx
      · obtain ⟨q, hq, v, hbelow, hv⟩ := ihes hx
        have hchild : q ∈ t.children p := by simpa [children, hp, Kind.children] using hq
        exact ⟨p, List.mem_cons_self, v, .of_child hchild hbelow, hv⟩
      · obtain ⟨q, hq, hbelow⟩ := ihrest hx
        exact ⟨q, List.mem_cons_of_mem p hq, hbelow⟩

theorem heading?_of_binding {inType : Bool} {d p : NodeId} {e : Option NodeId}
    (hk : t.kind d = .binding p e) : t.heading? inType d = none := by
  rw [heading?, hk]

theorem Outlines.unique {inType : Bool} {ds : List NodeId} {ss ss' : List Symbol}
    (h : t.Outlines inType ds ss) (h' : t.Outlines inType ds ss') : ss = ss' := by
  induction h generalizing ss' with
  | nil =>
      cases h'
      rfl
  | hidden hd _ ih =>
      cases h' with
      | hidden _ hrest' => exact ih hrest'
      | entry hd' => simp [hd] at hd'
      | vars hd' => simp [hd] at hd'
  | entry hd hheading _ _ ihmembers ihrest =>
      cases h' with
      | hidden hd' => simp [hd] at hd'
      | entry _ hheading' hmembers' hrest' =>
          obtain rfl := Option.some.inj (hheading.symm.trans hheading')
          rw [ihmembers hmembers', ihrest hrest']
      | vars _ hbinding' => simp [heading?_of_binding hbinding'] at hheading
  | vars hd hbinding hp hxs _ ih =>
      cases h' with
      | hidden hd' => simp [hd] at hd'
      | entry _ hheading' => simp [heading?_of_binding hbinding] at hheading'
      | vars _ hbinding' hp' hxs' hrest' =>
          obtain ⟨rfl, -⟩ := Kind.binding.inj (hbinding.symm.trans hbinding')
          obtain ⟨-, -, rfl, -⟩ := Kind.bindingPattern.inj (hp.symm.trans hp')
          rw [hxs.unique hxs', ih hrest']

theorem Outlines.exists_range {inType : Bool} {ds : List NodeId} {ss : List Symbol}
    (h : t.Outlines inType ds ss) {s : Symbol} (hs : s ∈ ss) : ∃ d ∈ ds, s.range = t.site d := by
  have later {d : NodeId} {ds : List NodeId} (h : ∃ d ∈ ds, s.range = t.site d) :
      ∃ x ∈ d :: ds, s.range = t.site x :=
    h.imp fun x hx => ⟨List.mem_cons_of_mem d hx.1, hx.2⟩
  induction h with
  | nil => cases hs
  | hidden _ _ ih => exact later (ih hs)
  | @entry _ d _ _ _ _ _ _ _ _ _ ih =>
      rcases List.mem_cons.mp hs with rfl | hs
      · exact ⟨d, List.mem_cons_self, rfl⟩
      · exact later (ih hs)
  | @vars _ d _ _ _ _ _ _ _ _ _ _ _ _ _ _ ih =>
      rcases List.mem_append.mp hs with hs | hs
      · obtain ⟨x, -, rfl⟩ := List.mem_map.mp hs
        exact ⟨d, List.mem_cons_self, rfl⟩
      · exact later (ih hs)

theorem heading?_cases (inType : Bool) {d : NodeId} (h : (t.kind d).isMember = true) :
    (∃ p e, t.kind d = .binding p e) ∨ ∃ x, t.heading? inType d = some x := by
  rw [heading?]
  cases hk : t.kind d with
  | binding p e => exact .inl ⟨p, e, rfl⟩
  | subscript k x ps o b => cases x <;> exact .inr ⟨_, rfl⟩
  | _ => first | exact .inr ⟨_, rfl⟩ | simp [hk, Kind.isMember] at h

theorem heading?_selection {inType : Bool} {d : NodeId} {h : Heading}
    (hh : t.heading? inType d = some h) : ∃ p ∈ (t.kind d).pieces, p.site t = h.selection := by
  rw [heading?] at hh
  split at hh <;> simp_all [Kind.pieces] <;> subst hh <;> simp [Piece.site]

theorem heading?_members {inType : Bool} {d m : NodeId} {h : Heading}
    (hh : t.heading? inType d = some h) (hm : m ∈ h.members) :
    (Kind.isMember, m) ∈ (t.kind d).parts ∧ .part m ∈ (t.kind d).pieces := by
  rw [heading?] at hh
  split at hh <;> simp_all [Kind.pieces, Kind.parts] <;> subst hh <;> simp_all

theorem symbolsAt_of_heading? {fuel : Nat} {inType : Bool} {d : NodeId} {h : Heading}
    (hd : t.isSynthesized d = false) (hh : t.heading? inType d = some h) :
    t.symbolsAt (fuel + 1) inType d = (Symbol.mk h.name h.detail h.kind (t.site d) h.selection
      (h.members.flatMap (t.symbolsAt fuel h.ofType))).shown := by
  have hsite : (t.site d).isSynthesized = false := hd
  rw [heading?] at hh
  rw [symbolsAt]
  simp only [hsite, Bool.false_eq_true, if_false]
  split at hh <;> simp_all <;> subst hh <;> simp

theorem filterMap_varName?_visitAt {fuel : Nat} {n : NodeId} (hn : t.varName? n = none) :
    (t.visitAt (fun _ => true) (fuel + 1) n).filterMap t.varName? =
      (t.children n).flatMap fun c => (t.visitAt (fun _ => true) fuel c).filterMap t.varName? := by
  simp only [visitAt, if_true, List.filterMap_cons, hn, List.filterMap_flatMap]

theorem varName?_of_isType (ht : t.WellFormed) {fuel : Nat} {n : NodeId}
    (hn : (t.kind n).isType = true) (hfuel : n < fuel) :
    (t.visitAt (fun _ => true) fuel n).filterMap t.varName? = [] := by
  refine List.filterMap_eq_nil_iff.mpr fun x hx => ?_
  have hx := isType_of_below ht hn ((mem_visitAt ht hfuel).mp hx).below
  rw [varName?]
  cases hk : t.kind x <;> simp [hk, Kind.isType] at hx ⊢

theorem boundNames_visitAt (ht : t.WellFormed) {fuel : Nat} {p : NodeId}
    (hp : (t.kind p).isPattern = true) (hfuel : p < fuel) :
    t.BoundNames [p] ((t.visitAt (fun _ => true) fuel p).filterMap t.varName?) := by
  induction fuel generalizing p with
  | zero => exact absurd hfuel (Nat.not_lt_zero p)
  | succ fuel ih =>
      have hlt {c : NodeId} (hc : c ∈ t.children p) : c < fuel :=
        Nat.lt_of_lt_of_le (ht.child_lt p c hc) (Nat.le_of_lt_succ hfuel)
      cases hk : t.kind p with
      | namePattern v =>
          rw [filterMap_varName?_visitAt (by simp [varName?, hk])]
          have hv : (t.kind v).isVar = true := ht.fits p (Kind.isVar, v) (by simp [hk, Kind.parts])
          have hlt := hlt (c := v) (by simp [children, hk, Kind.children])
          obtain ⟨fuel, rfl⟩ := Nat.exists_eq_add_one.mpr (Nat.zero_lt_of_lt hlt)
          cases hkv : t.kind v with
          | var x =>
              have hnames : t.BoundNames [p] [x] := .name hk hkv .nil
              simpa [children, hk, hkv, Kind.children, visitAt, varName?] using hnames
          | _ => simp [hkv, Kind.isVar] at hv
      | wildcard =>
          rw [filterMap_varName?_visitAt (by simp [varName?, hk])]
          simpa [children, hk, Kind.children] using .wildcard hk .nil
      | tuplePattern es =>
          rw [filterMap_varName?_visitAt (by simp [varName?, hk])]
          have hes : t.children p = es := by rw [children, hk, Kind.children]
          rw [hes]
          have hparts : t.BoundNames es (es.flatMap fun c =>
              (t.visitAt (fun _ => true) fuel c).filterMap t.varName?) :=
            .flatMap fun c hc => ih (ht.fits p (Kind.isPattern, c) (by simp [hk, Kind.parts, hc]))
              (hlt (hes ▸ hc))
          simpa using BoundNames.tuple hk hparts .nil
      | _ => simp [hk, Kind.isPattern] at hp

theorem boundNames_preorder (ht : t.WellFormed) {p sub : NodeId} {i : Site} {how : Introducer}
    {a : Option NodeId} (hp : t.kind p = .bindingPattern i how sub a) :
    t.BoundNames [sub] ((t.preorder p).filterMap t.varName?) := by
  have hlt {c : NodeId} (hc : c ∈ t.children p) : c < t.size :=
    Nat.lt_trans (ht.child_lt p c hc) (lt_size_of_child hc)
  have hsub : (t.kind sub).isPattern = true :=
    ht.fits p (Kind.isPattern, sub) (by simp [hp, Kind.parts])
  have htypes : a.toList.flatMap
      (fun c => (t.visitAt (fun _ => true) t.size c).filterMap t.varName?) = [] := by
    refine List.flatMap_eq_nil_iff.mpr fun c hc => varName?_of_isType ht ?_ (hlt ?_)
    · exact ht.fits p (Kind.isType, c) (by simp [hp, Kind.parts, Option.mem_toList.mp hc])
    · simp [children, hp, Kind.children, Option.mem_toList.mp hc]
  rw [preorder, visit, filterMap_varName?_visitAt (by simp [varName?, hp]), children, hp,
    Kind.children, List.flatMap_cons, htypes, List.append_nil]
  exact boundNames_visitAt ht hsub (hlt (by simp [children, hp, Kind.children]))

section Places

variable (h : t.Parsed) {u : NodeId} (hu : u ∈ t.units)

include h hu

theorem includes_var {d v : NodeId} {x : Name} (hd : t.Below u d) (hv : t.Below d v)
    (hk : t.kind v = .var x) :
    (t.site d).Includes x.site ∧ x.site.start < x.site.stop := by
  have hown := own_of_var h hu (hd.trans hv) hk
  have hwritten := (placed_of_below h hu (hd.trans hv)).written hown (.name x)
    (by simp [hk, Kind.pieces])
  exact ⟨(includes_of_below h hu hd hv hown).trans hwritten.1, hwritten.2.nonempty⟩

theorem outlines_binding {fuel : Nat} {inType : Bool} {d p : NodeId} {e : Option NodeId}
    (hd : t.Below u d) (hown : t.isSynthesized d = false) (hk : t.kind d = .binding p e) :
    t.Outlines inType [d] (t.symbolsAt (fuel + 1) inType d) := by
  have ht := h.wellFormed
  have hsite : (t.site d).isSynthesized = false := hown
  have hpattern := ht.fits d (Kind.isBindingPattern, p) (by simp [hk, Kind.parts])
  obtain ⟨i, how, sub, a, hp⟩ := Kind.exists_of_isBindingPattern hpattern
  have hmem : p ∈ t.children d := by simp [children, hk, Kind.children]
  have hshown : ∀ x ∈ (t.preorder p).filterMap t.varName?,
      (Symbol.mk x.text none (if inType then .field else .var) (t.site d) x.site []).shown =
        [Symbol.mk x.text none (if inType then .field else .var) (t.site d) x.site []] := by
    intro x hx
    obtain ⟨v, hv, hname⟩ := List.mem_filterMap.mp hx
    have hlt := Nat.lt_trans (ht.child_lt d p hmem) (lt_size_of_child hmem)
    have hbelow := (mem_preorder ht hlt).mp hv
    refine Symbol.shown_eq (includes_var h hu hd (.of_child hmem hbelow) ?_).1
    rw [varName?] at hname
    split at hname <;> simp_all
  have hvars : t.Outlines inType [d] _ := .vars hown hk hp (boundNames_preorder ht hp) .nil
  rw [symbolsAt]
  simp only [hsite, Bool.false_eq_true, if_false, hk]
  rw [List.append_nil, List.map_eq_flatMap] at hvars
  rwa [List.flatMap_congr hshown]

theorem outlines_symbolsAt {fuel : Nat} {inType : Bool} {d : NodeId} (hd : t.Below u d)
    (hmember : (t.kind d).isMember = true) (hown : t.isSynthesized d = false) (hfuel : d < fuel) :
    t.Outlines inType [d] (t.symbolsAt fuel inType d) := by
  have ht := h.wellFormed
  induction fuel generalizing d inType with
  | zero => exact absurd hfuel (Nat.not_lt_zero d)
  | succ fuel ih =>
      rcases heading?_cases inType hmember with ⟨p, e, hk⟩ | ⟨x, hx⟩
      · exact outlines_binding h hu hd hown hk
      · have hwritten := (placed_of_below h hu hd).written hown
        obtain ⟨q, hq, hselection⟩ := heading?_selection hx
        have hshown := Symbol.shown_eq (s := .mk x.name x.detail x.kind (t.site d) x.selection
          (x.members.flatMap (t.symbolsAt fuel x.ofType))) (hselection ▸ (hwritten q hq).1)
        rw [symbolsAt_of_heading? hown hx, hshown]
        refine .entry hown hx (.flatMap fun m hm => ?_) .nil
        obtain ⟨hpart, hpiece⟩ := heading?_members hx hm
        have hchild := child_of_part hpart
        refine ih (hd.trans (below_child hchild)) (ht.fits d _ hpart)
          ((hwritten _ hpiece).1.isSynthesized_eq.trans hown) ?_
        exact Nat.lt_of_lt_of_le (ht.child_lt d m hchild) (Nat.le_of_lt_succ hfuel)

theorem Outlines.nests {inType : Bool} {ds : List NodeId} {ss : List Symbol}
    (hs : t.Outlines inType ds ss) (hds : ∀ d ∈ ds, t.Below u d) :
    ∀ s ∈ Symbol.preorders ss, s.Nests := by
  induction hs with
  | nil => simp [Symbol.preorders]
  | hidden _ _ ih => exact ih fun y hy => hds y (List.mem_cons_of_mem _ hy)
  | @entry inType d ds x cs ss hd hheading hmembers hrest ihmembers ihrest =>
      have hwritten := (placed_of_below h hu (hds d List.mem_cons_self)).written hd
      have hbelow : ∀ m ∈ x.members, t.Below u m := fun m hm => (hds d List.mem_cons_self).trans
        (below_child (child_of_part (heading?_members hheading hm).1))
      intro s hs
      rw [Symbol.preorders, Symbol.preorder, List.cons_append, List.mem_cons, List.mem_append] at hs
      rcases hs with rfl | hs | hs
      · obtain ⟨q, hq, hselection⟩ := heading?_selection hheading
        refine ⟨hselection ▸ (hwritten q hq).1, hselection ▸ (hwritten q hq).2.nonempty,
          fun c hc => ?_⟩
        obtain ⟨m, hm, hrange⟩ := hmembers.exists_range hc
        exact hrange ▸ (hwritten _ (heading?_members hheading hm).2).1
      · exact ihmembers hbelow s hs
      · exact ihrest (fun y hy => hds y (List.mem_cons_of_mem _ hy)) s hs
  | @vars inType d p sub e a i how ds xs ss hd hbinding hp hxs hrest ih =>
      have hchild : p ∈ t.children d := by simp [children, hbinding, Kind.children]
      have hsub : t.Below d sub :=
        .of_child hchild (below_child (by simp [children, hp, Kind.children]))
      intro s hs
      rw [Symbol.preorders_append, Symbol.preorders_map_leaf fun _ => rfl, List.mem_append] at hs
      rcases hs with hs | hs
      · obtain ⟨x, hx, rfl⟩ := List.mem_map.mp hs
        obtain ⟨q, hq, v, hbelow, hv⟩ := hxs.exists_below hx
        obtain rfl := List.mem_singleton.mp hq
        have hvar := includes_var h hu (hds d List.mem_cons_self) (hsub.trans hbelow) hv
        exact ⟨hvar.1, hvar.2, by simp [Symbol.children]⟩
      · exact ih (fun y hy => hds y (List.mem_cons_of_mem _ hy)) s hs

end Places

theorem Parsed.exists_unitOf? (h : t.Parsed) {v : NodeId} (hv : v ∈ t.units) :
    ∃ u, t.unitOf? (t.site v).file.uri = some u := by
  obtain ⟨m, hm, hvm⟩ := List.mem_flatMap.mp hv
  obtain ⟨ds, hk⟩ := Kind.exists_of_isUnit (isUnit_of_mem_units h.wellFormed hv)
  have hentered : t.Entered t.isModule m v :=
    entered_iff.mpr (.inr ⟨(h.isModule hm).1, v, h.children_of_module hm ▸ hvm, .refl⟩)
  have hvisited := (mem_visit h.wellFormed (h.wellFormed.modules_lt m hm)).mpr hentered
  refine Option.isSome_iff_exists.mp (List.findSome?_isSome_iff.mpr ⟨m, hm, ?_⟩)
  exact List.find?_isSome.mpr ⟨v, hvisited, by simp [isUnitOf, hk]⟩

theorem uri_of_unitOf? {uri : String} {u : NodeId} (hu : t.unitOf? uri = some u) :
    (t.site u).file.uri = uri := by
  obtain ⟨m, -, hfind⟩ := List.exists_of_findSome?_eq_some hu
  have hunit := List.find?_some hfind
  rw [isUnitOf] at hunit
  split at hunit
  · exact eq_of_beq hunit
  · cases hunit

theorem outlines_outline (h : t.Parsed) {uri : String} {u : NodeId} {ds : List NodeId}
    (hu : t.unitOf? uri = some u) (hk : t.kind u = .unit ds) :
    t.Outlines false ds (t.outline uri) ∧ ∀ s ∈ Symbol.preorders (t.outline uri), s.Nests := by
  have ht := h.wellFormed
  have hunit := h.mem_units_of_unitOf? hu
  have hchild {d : NodeId} (hd : d ∈ ds) : d ∈ t.children u := by
    simpa [children, hk, Kind.children] using hd
  have houtline : t.Outlines false ds (t.outline uri) := by
    rw [outline, hu]
    simp only [hk]
    refine .flatMap fun d hd => outlines_symbolsAt h hunit (below_child (hchild hd)) ?_ ?_ ?_
    · exact ht.fits u (Kind.isMember, d) (by simp [hk, Kind.parts, hd])
    · exact own_of_part h hunit (.refl u) (by rw [hk]; rfl) (by simp [hk, Kind.pieces, hd])
    · have hlt := ht.child_lt u d (hchild hd)
      exact Nat.lt_succ_of_lt (Nat.lt_trans hlt (lt_size_of_mem_units ht hunit))
  exact ⟨houtline, houtline.nests h hunit fun d hd => below_child (hchild hd)⟩

theorem exists_of_names {fs : List File} {uri : String} {names : List String}
    (h : (parseModule .empty "main" fs).toOption.bind (fun t =>
      (t.unitOf? uri).map fun _ => (Symbol.preorders (t.outline uri)).map Symbol.name) =
        some names) :
    ∃ t v, parseModule .empty "main" fs = .ok t ∧ t.unitOf? uri = some v ∧
      (Symbol.preorders (t.outline uri)).map Symbol.name = names := by
  cases hparse : parseModule .empty "main" fs with
  | error e => simp [hparse, Except.toOption] at h
  | ok t =>
      rw [hparse] at h
      obtain ⟨v, hv, hnames⟩ := Option.map_eq_some_iff.mp h
      exact ⟨t, v, rfl, hv, hnames⟩

/-- For every document that has been parsed a unit is found, and its outline is that of the
declarations of the unit, all of them. Each symbol selects some text inside of its range, where
the ranges of the symbols below it are too. -/
theorem outline_complete (h : t.Parsed) {v : NodeId} (hv : v ∈ t.units) :
    ∃ u ds, t.unitOf? (t.site v).file.uri = some u ∧ u ∈ t.units ∧
      (t.site u).file.uri = (t.site v).file.uri ∧ t.kind u = .unit ds ∧
      (∀ ss, t.Outlines false ds ss ↔ ss = t.outline (t.site v).file.uri) ∧
      ∀ s ∈ Symbol.preorders (t.outline (t.site v).file.uri), s.Nests := by
  obtain ⟨u, hu⟩ := h.exists_unitOf? hv
  have hunit := h.mem_units_of_unitOf? hu
  obtain ⟨ds, hk⟩ := Kind.exists_of_isUnit (isUnit_of_mem_units h.wellFormed hunit)
  obtain ⟨houtline, hnests⟩ := outlines_outline h hu hk
  refine ⟨u, ds, hu, hunit, uri_of_unitOf? hu, hk, fun ss => ⟨fun hss => ?_, ?_⟩, hnests⟩
  · exact hss.unique houtline
  · rintro rfl
    exact houtline

def crateDocument : File :=
  .document "file:///crate.orca" "
    namespace Store \x7b
      type Crate \x7b
        var ((w, _), h): ((Int, Int), Int)
        init(n: Int) \x7b let side = n \x7d
        subscript(i: Int): Int
      \x7d
      let () = ()
    \x7d
    trait Sized \x7b fun area() -> Int \x7d
    let _ = 1"

set_option maxRecDepth 4000 in
theorem crateDocument_outlined : ∃ t v, parseModule .empty "main" [crateDocument] = .ok t ∧
    v ∈ t.units ∧ (t.site v).file.uri = "file:///crate.orca" ∧
    (Symbol.preorders (t.outline "file:///crate.orca")).map Symbol.name =
      ["Store", "Crate", "w", "h", "init", "subscript", "Sized", "area"] ∧
    ∃ u ds, t.unitOf? "file:///crate.orca" = some u ∧ t.kind u = .unit ds ∧
      (∀ ss, t.Outlines false ds ss ↔ ss = t.outline "file:///crate.orca") ∧
      ∀ s ∈ Symbol.preorders (t.outline "file:///crate.orca"), s.Nests := by
  have hrun : (parseModule .empty "main" [crateDocument]).toOption.bind (fun t =>
      (t.unitOf? "file:///crate.orca").map fun _ =>
        (Symbol.preorders (t.outline "file:///crate.orca")).map Symbol.name) =
      some ["Store", "Crate", "w", "h", "init", "subscript", "Sized", "area"] := by
    rw [parseModule, parseUnits, parseUnit, Layout.ofFile_of_text crateDocument rfl]
    decide +kernel
  obtain ⟨t, v, hparse, hv, hnames⟩ := exists_of_names hrun
  have hparsed : t.Parsed := .module .empty hparse
  have hunit := hparsed.mem_units_of_unitOf? hv
  have huri := uri_of_unitOf? hv
  obtain ⟨u, ds, hu, -, -, hk, houtline, hnests⟩ := outline_complete hparsed hunit
  rw [huri] at hu houtline hnests
  exact ⟨t, v, hparse, hunit, huri, hnames, u, ds, hu, hk, houtline, hnests⟩

end Tree

end LanguageService
