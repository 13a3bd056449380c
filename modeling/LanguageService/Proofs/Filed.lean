import LanguageService.Proofs.Pointing

namespace LanguageService

namespace Kind

def isInit : Kind → Bool
  | init _ _ _ _ => true
  | _ => false

def waits : Kind → Bool
  | extension _ _ _ => true
  | conformance _ _ _ _ => true
  | _ => false

theorem part_of_members {k : Kind} {m : NodeId} (h : m ∈ k.members) :
    (isMember, m) ∈ k.parts := by
  cases k <;> simp_all [members, parts]

theorem isExplicitInit_of_isMember {k : Kind} (hk : k.isMember = true) (hinit : k.isInit = true) :
    k.isExplicitInit = true := by
  cases k <;> simp_all [isMember, isInit, isExplicitInit]

end Kind

namespace Tree

variable {t : Tree}

theorem isExplicitInit_of_members (ht : t.WellFormed) {n m : NodeId}
    (hm : m ∈ (t.kind n).members) (hinit : (t.kind m).isInit = true) :
    (t.kind m).isExplicitInit = true :=
  Kind.isExplicitInit_of_isMember (ht.fits n _ (Kind.part_of_members hm)) hinit

theorem Initializes.mono {old new : Table Owner} {ty i : NodeId} (h : t.Initializes old ty i)
    (hkeep : ∀ ext o, old.get? ext = some o → new.get? ext = some o) :
    t.Initializes new ty i := by
  cases h with
  | memberwise hty => exact .memberwise hty
  | declared hi hinit => exact .declared hi hinit
  | extended hext hi hinit => exact .extended (hkeep _ _ hext) hi hinit

theorem eq_of_below_module (ht : t.WellFormed) {m n : NodeId} {name : String} {us : List NodeId}
    (hm : t.kind m = .module name us) (h : t.Below n m) : m = n := by
  refine Decidable.byContradiction fun hne => ?_
  obtain ⟨q, -, hq⟩ := h.parent hne
  obtain ⟨f, hf, hkind⟩ := kind_of_child ht hq
  rw [hm] at hkind
  simp [Kind.not_part_of_module hf] at hkind

end Tree

namespace Declarations

def Fresh (t : Tree) (ds : Declarations) (d : NodeId) : Prop :=
  ∀ x, t.Below d x → ds.parents.get? x = none ∧ ∀ e ∈ ds.pending, ¬ t.Below e x

def Placed (t : Tree) (ds : Declarations) (d : NodeId) : Prop :=
  ∀ e, (t.kind e).waits = true → d ∈ t.children e → ds.extended.get? e ≠ none

structure Filed (t : Tree) (ds : Declarations) : Prop where
  nodup : ds.pending.Nodup
  seen : ∀ e ∈ ds.pending, ds.parents.get? e ≠ none
  unfiled : ∀ e ∈ ds.pending, ds.extended.get? e = none
  unseen : ∀ e ∈ ds.pending, ∀ c ∈ t.children e, ∀ x, t.Below c x → ds.parents.get? x = none
  extended : ∀ e o, ds.extended.get? e = some o → ds.parents.get? e ≠ none
  placed : ∀ d, ds.parents.get? d ≠ none → Placed t ds d
  initializers : ∀ p ∈ ds.initializers, t.Initializes ds.extended p.1 p.2

structure Within (region : NodeId → Prop) (ds ds' : Declarations) : Prop where
  parents : ∀ x, ¬ region x → ds'.parents.get? x = ds.parents.get? x
  pending : ∀ e ∈ ds'.pending, e ∈ ds.pending ∨ region e
  extended : ds'.extended = ds.extended

structure Advances (t : Tree) (region : NodeId → Prop) (ds ds' : Declarations) : Prop
    extends Within region ds ds' where
  filed : Filed t ds'

structure Alike (ds ds' : Declarations) : Prop where
  parents : ds'.parents = ds.parents
  pending : ds'.pending = ds.pending
  extended : ds'.extended = ds.extended
  initializers : ds'.initializers = ds.initializers

variable {t : Tree} {ds ds₁ ds' : Declarations} {region region' : NodeId → Prop}
  {owner d : NodeId} {s : Scope}

theorem Within.refl (ds : Declarations) : Within region ds ds :=
  ⟨fun _ _ => rfl, fun _ => .inl, rfl⟩

theorem Within.trans (h : Within region ds ds₁) (h' : Within region ds₁ ds') :
    Within region ds ds' where
  parents := fun x hx => (h'.parents x hx).trans (h.parents x hx)
  pending := fun e he => (h'.pending e he).elim (h.pending e) .inr
  extended := h'.extended.trans h.extended

theorem Within.widen (h : Within region ds ds') (hsub : ∀ x, region x → region' x) :
    Within region' ds ds' where
  parents := fun x hx => h.parents x fun hin => hx (hsub x hin)
  pending := fun e he => (h.pending e he).imp_right (hsub e)
  extended := h.extended

theorem Advances.trans (h : Advances t region ds ds₁) (h' : Advances t region ds₁ ds') :
    Advances t region ds ds' :=
  ⟨h.toWithin.trans h'.toWithin, h'.filed⟩

theorem Advances.widen (h : Advances t region ds ds') (hsub : ∀ x, region x → region' x) :
    Advances t region' ds ds' :=
  ⟨h.toWithin.widen hsub, h.filed⟩

theorem Alike.trans (h : Alike ds ds₁) (h' : Alike ds₁ ds') : Alike ds ds' :=
  ⟨h'.parents.trans h.parents, h'.pending.trans h.pending, h'.extended.trans h.extended,
    h'.initializers.trans h.initializers⟩

theorem Fresh.below {x : NodeId} (h : Fresh t ds d) (hx : t.Below d x) : Fresh t ds x :=
  fun y hy => h y (hx.trans hy)

theorem Fresh.later (h : Fresh t ds d) (hwithin : Within region ds ds')
    (hout : ∀ e, region e → ∀ x, t.Below d x → ¬ t.Below e x) : Fresh t ds' d := by
  intro x hx
  refine ⟨?_, fun e he => ?_⟩
  · rw [hwithin.parents x fun hin => hout x hin x hx (.refl x)]
    exact (h x hx).1
  · rcases hwithin.pending e he with he | hin
    · exact (h x hx).2 e he
    · exact hout e hin x hx

theorem Filed.alike (h : Filed t ds) (halike : Alike ds ds') : Filed t ds' := by
  obtain ⟨hparents, hpending, hextended, hinits⟩ := halike
  refine ⟨hpending ▸ h.nodup, ?_, ?_, ?_, ?_, ?_, ?_⟩
  · simpa only [hparents, hpending] using h.seen
  · simpa only [hextended, hpending] using h.unfiled
  · simpa only [hparents, hpending] using h.unseen
  · simpa only [hparents, hextended] using h.extended
  · simpa only [Placed, hparents, hextended] using h.placed
  · simpa only [hinits, hextended] using h.initializers

theorem filed_empty (t : Tree) : Filed t .empty := by
  constructor <;> simp [empty]

theorem fresh_empty (t : Tree) (d : NodeId) : Fresh t .empty d := by
  simp [Fresh, empty]

theorem Filed.setParent (h : Filed t ds) (owner : NodeId)
    (hd : ∀ e ∈ ds.pending, ¬ t.Below e d) (hplaced : Placed t ds d) :
    Filed t (setParent owner ds d) := by
  have hseen {x : NodeId} (hx : ds.parents.get? x ≠ none) :
      (ds.parents.insert d owner).get? x ≠ none := by
    rw [Table.get?_insert]
    split
    · simp
    · exact hx
  refine ⟨h.nodup, fun e he => hseen (h.seen e he), h.unfiled, fun e he c hc x hx => ?_,
    fun e o ho => hseen (h.extended e o ho), fun x hx => ?_, h.initializers⟩
  · rw [Declarations.setParent, Table.get?_insert, if_neg]
    · exact h.unseen e he c hc x hx
    · rintro rfl
      exact hd e he (.of_child hc hx)
  · rw [Declarations.setParent, Table.get?_insert] at hx
    split at hx
    · next heq => exact heq ▸ hplaced
    · exact h.placed x hx

theorem within_setParent (owner d : NodeId) (ds : Declarations) :
    Within (· = d) ds (setParent owner ds d) :=
  ⟨fun x hx => by rw [setParent, Table.get?_insert, if_neg (Ne.symm hx)], fun _ => .inl, rfl⟩

theorem alike_addName (t : Tree) (s : Scope) (ds : Declarations) (d : NodeId) :
    Alike ds (addName t s ds d) := by
  rw [addName]
  split <;> exact ⟨rfl, rfl, rfl, rfl⟩

theorem alike_addVars (t : Tree) (s : Scope) (b : NodeId) (ds : Declarations) (vs : List NodeId) :
    Alike ds (vs.foldl (addVar t s b) ds) := by
  induction vs generalizing ds with
  | nil => exact ⟨rfl, rfl, rfl, rfl⟩
  | cons v vs ih =>
      have hbound : Alike ds { ds with bindings := ds.bindings.insert v b } := ⟨rfl, rfl, rfl, rfl⟩
      exact (hbound.trans (alike_addName t s _ v)).trans (ih _)

theorem declare_of_waits (hd : (t.kind d).waits = true) :
    declare t owner s ds d = { ds with pending := ds.pending ++ [d] } := by
  rw [declare]
  cases hk : t.kind d <;> simp [hk, Kind.waits] at hd ⊢

theorem declare_of_isInit (hd : (t.kind d).isInit = true) :
    declare t owner s ds d = addInitializer s ds d := by
  rw [declare]
  cases hk : t.kind d <;> simp [hk, Kind.isInit] at hd ⊢

theorem alike_declare (hwaits : (t.kind d).waits = false) (hinit : (t.kind d).isInit = false) :
    Alike ds (declare t owner s ds d) := by
  rw [declare]
  split
  · next p i hk =>
      have hstored : Alike ds (addStored t owner s ds (t.patternVars p)) := by
        unfold addStored
        split <;> exact ⟨rfl, rfl, rfl, rfl⟩
      exact hstored.trans (alike_addVars t s d _ _)
  · next hk => simp [hk, Kind.waits] at hwaits
  · next hk => simp [hk, Kind.waits] at hwaits
  · next hk => simp [hk, Kind.isInit] at hinit
  · have hsubscript : Alike ds (addSubscript s ds d) := by
      unfold addSubscript
      split <;> exact ⟨rfl, rfl, rfl, rfl⟩
    exact hsubscript.trans (alike_addName t s _ d)
  · exact alike_addName t s ds d

theorem declare_frame (t : Tree) (owner : NodeId) (s : Scope) (ds : Declarations) (d : NodeId) :
    (declare t owner s ds d).parents = ds.parents ∧
      (declare t owner s ds d).extended = ds.extended ∧
      (declare t owner s ds d).pending =
        if (t.kind d).waits then ds.pending ++ [d] else ds.pending := by
  cases hwaits : (t.kind d).waits with
  | true =>
      rw [declare_of_waits hwaits]
      exact ⟨rfl, rfl, rfl⟩
  | false =>
      cases hinit : (t.kind d).isInit with
      | true =>
          rw [declare_of_isInit hinit]
          unfold addInitializer
          split <;> exact ⟨rfl, rfl, rfl⟩
      | false =>
          have halike : Alike ds (declare t owner s ds d) := alike_declare hwaits hinit
          exact ⟨halike.parents, halike.extended, halike.pending⟩

variable (ht : t.WellFormed)

include ht

theorem Fresh.unseen (h : Fresh t ds d) (owner : NodeId) {c x : NodeId} (hc : c ∈ t.children d)
    (hx : t.Below c x) : (Declarations.setParent owner ds d).parents.get? x = none := by
  rw [Declarations.setParent, Table.get?_insert, if_neg]
  · exact (h x (.of_child hc hx)).1
  · rintro rfl
    exact Tree.not_below_parent ht hc hx

theorem placed_of_child {p : NodeId} (hd : d ∈ t.children p)
    (hp : (t.kind p).waits = true → ds.extended.get? p ≠ none) : Placed t ds d := by
  intro e he hde
  obtain rfl := ht.parent_unique _ _ _ hd hde
  exact hp he

theorem Filed.enter (h : Filed t ds) (owner : NodeId) (hfresh : Fresh t ds d)
    (hplaced : Placed t ds d)
    (hinit : ∀ ty, s = .type (.decl ty) → (t.kind d).isInit = true →
      t.Initializes ds.extended ty d) :
    Filed t (declare t owner s (Declarations.setParent owner ds d) d) := by
  obtain ⟨hnone, hout⟩ := hfresh d (.refl d)
  have hseen := h.setParent owner hout hplaced
  cases hwaits : (t.kind d).waits with
  | true =>
      rw [declare_of_waits hwaits]
      refine ⟨?_, ?_, ?_, ?_, hseen.extended, hseen.placed, hseen.initializers⟩
      · have hnew : d ∉ ds.pending := fun hd => h.seen d hd hnone
        refine List.nodup_append.mpr ⟨h.nodup, by simp, fun e he d' hd' => ?_⟩
        rintro rfl
        exact hnew (List.mem_singleton.mp hd' ▸ he)
      · refine List.forall_mem_append.mpr ⟨hseen.seen, ?_⟩
        simp [Declarations.setParent]
      · refine List.forall_mem_append.mpr ⟨hseen.unfiled, ?_⟩
        rw [List.forall_mem_singleton]
        exact Option.eq_none_iff_forall_ne_some.mpr fun o ho => h.extended d o ho hnone
      · refine List.forall_mem_append.mpr ⟨hseen.unseen, ?_⟩
        rw [List.forall_mem_singleton]
        exact fun c hc x hx => hfresh.unseen ht owner hc hx
  | false =>
      cases hk : (t.kind d).isInit with
      | false => exact hseen.alike (alike_declare hwaits hk)
      | true =>
          rw [declare_of_isInit hk]
          unfold addInitializer
          split
          · refine ⟨hseen.nodup, hseen.seen, hseen.unfiled, hseen.unseen, hseen.extended,
              hseen.placed, ?_⟩
            refine List.forall_mem_append.mpr ⟨h.initializers, ?_⟩
            exact List.forall_mem_singleton.mpr (hinit _ rfl hk)
          · exact hseen

omit ht in
theorem within_enter (t : Tree) (owner : NodeId) (s : Scope) (ds : Declarations) (d : NodeId) :
    Within (t.Below d) ds (declare t owner s (setParent owner ds d) d) := by
  obtain ⟨hparents, hextended, hpending⟩ := declare_frame t owner s (setParent owner ds d) d
  refine ⟨fun x hx => ?_, fun e he => ?_, hextended⟩
  · rw [hparents, setParent, Table.get?_insert, if_neg]
    rintro rfl
    exact hx (.refl d)
  · rw [hpending] at he
    split at he
    · refine (List.mem_append.mp he).imp_right fun hd => ?_
      rw [List.mem_singleton.mp hd]
      exact .refl d
    · exact .inl he

theorem Fresh.enter (h : Fresh t ds d) (owner : NodeId) (hwaits : (t.kind d).waits = false)
    {c : NodeId} (hc : c ∈ t.children d) :
    Fresh t (declare t owner s (Declarations.setParent owner ds d) d) c := by
  obtain ⟨hparents, -, hpending⟩ := declare_frame t owner s (Declarations.setParent owner ds d) d
  intro x hx
  rw [hparents, hpending, hwaits]
  exact ⟨h.unseen ht owner hc hx, (h x (.of_child hc hx)).2⟩

omit ht in
theorem Advances.foldl {f : Declarations → NodeId → Declarations} {is : List NodeId}
    (hf : ∀ ds', ∀ i ∈ is, Filed t ds' → Fresh t ds' i → ds'.extended = ds.extended →
      Advances t (t.Below i) ds' (f ds' i))
    (hapart : is.Pairwise fun i j => ∀ x, ¬ (t.Below i x ∧ t.Below j x)) (h : Filed t ds)
    (hfresh : ∀ i ∈ is, Fresh t ds i) :
    Advances t (fun x => ∃ i ∈ is, t.Below i x) ds (is.foldl f ds) := by
  induction is generalizing ds with
  | nil => exact ⟨.refl ds, h⟩
  | cons i is ih =>
      rw [List.pairwise_cons] at hapart
      have hfirst := hf ds i (by simp) h (hfresh i (by simp)) rfl
      have hrest := ih (fun ds' j hj h hfresh hext => hf ds' j (by simp [hj]) h hfresh
        (hext.trans hfirst.extended)) hapart.2 hfirst.filed fun j hj =>
          (hfresh j (by simp [hj])).later hfirst.toWithin fun e he x hx hex =>
            hapart.1 j hj x ⟨he.trans hex, hx⟩
      refine .trans (hfirst.widen ?_) (hrest.widen ?_)
      · exact fun x hx => ⟨i, by simp, hx⟩
      · rintro x ⟨j, hj, hx⟩
        exact ⟨j, by simp [hj], hx⟩

omit ht in
theorem Fresh.apart {is : List NodeId} (h : Fresh t ds d)
    (hadvances : Advances t (fun x => ∃ i ∈ is, t.Below i x) ds ds')
    (hapart : ∀ i ∈ is, ∀ x, ¬ (t.Below i x ∧ t.Below d x)) : Fresh t ds' d := by
  refine h.later hadvances.toWithin ?_
  rintro e ⟨i, hi, he⟩ x hx hex
  exact hapart i hi x ⟨he.trans hex, hx⟩

omit ht in
theorem Advances.below {is : List NodeId}
    (h : Advances t (fun x => ∃ i ∈ is, t.Below i x) ds ds') (his : is.Sublist (t.children d)) :
    Advances t (t.Below d) ds ds' := by
  refine h.widen ?_
  rintro x ⟨i, hi, hx⟩
  exact .of_child (his.subset hi) hx

theorem Filed.setParents {is : List NodeId} (hwaits : (t.kind d).waits = false)
    (his : is.Sublist (t.children d)) (h : Filed t ds) (hfresh : ∀ i ∈ is, Fresh t ds i) :
    Advances t (fun x => ∃ i ∈ is, t.Below i x) ds (setParents d ds is) := by
  refine .foldl (fun ds' i hi h hfresh _ => ⟨?_, h.setParent d (hfresh i (.refl i)).2 ?_⟩)
    ((Tree.children_pairwise ht d).sublist his) h hfresh
  · exact (within_setParent d i ds').widen fun x hx => hx ▸ .refl x
  · exact placed_of_child ht (his.subset hi) (by simp [hwaits])

def Descends (t : Tree) (fuel : Nat) : Prop :=
  ∀ {ds : Declarations} {d : NodeId} {s : Scope} (owner : NodeId), Filed t ds → Fresh t ds d →
    Placed t ds d →
    (∀ ty, s = .type (.decl ty) → (t.kind d).isInit = true → t.Initializes ds.extended ty d) →
    Advances t (t.Below d) ds (collectAt t fuel owner s ds d)

section Parts

variable {fuel : Nat} (hrec : Descends t fuel) (hwaits : (t.kind d).waits = false)

include hrec hwaits

theorem Descends.parts {is : List NodeId} (his : is.Sublist (t.children d)) (h : Filed t ds)
    (hfresh : ∀ i ∈ is, Fresh t ds i)
    (hinit : ∀ i ∈ is, ∀ ty, s = .type (.decl ty) → (t.kind i).isInit = true →
      t.Initializes ds.extended ty i) :
    Advances t (fun x => ∃ i ∈ is, t.Below i x) ds (is.foldl (collectAt t fuel d s) ds) := by
  refine .foldl (fun ds' i hi h hfresh hext => hrec d h hfresh ?_ ?_)
    ((Tree.children_pairwise ht d).sublist his) h hfresh
  · exact placed_of_child ht (his.subset hi) (by simp [hwaits])
  · rw [hext]
    exact hinit i hi

theorem Descends.members {ms : List NodeId} (hms : ms.Sublist (t.children d))
    (hmembers : (t.kind d).members = ms) (h : Filed t ds) (hfresh : ∀ m ∈ ms, Fresh t ds m) :
    Advances t (fun x => ∃ m ∈ ms, t.Below m x) ds
      (ms.foldl (collectAt t fuel d (.type (.decl d))) ds) := by
  refine hrec.parts ht hwaits hms h hfresh ?_
  rintro m hm _ ⟨⟩ hinit
  have hm : m ∈ (t.kind d).members := hmembers ▸ hm
  exact .declared hm (Tree.isExplicitInit_of_members ht hm hinit)

omit hwaits in
theorem Descends.product {introducer : Site} {x : Name} {gs ms : List NodeId}
    {memberwise : Option NodeId} (hk : t.kind d = .product introducer x gs ms memberwise)
    (h : Filed t ds) (hfresh : ∀ c ∈ t.children d, Fresh t ds c) :
    Advances t (t.Below d) ds (memberwise.toList.foldl (collectAt t fuel d (.type (.decl d)))
      (ms.foldl (collectAt t fuel d (.type (.decl d))) (setParents d ds gs))) := by
  have hwaits : (t.kind d).waits = false := by rw [hk]; rfl
  have hchildren : t.children d = gs ++ ms ++ memberwise.toList := by
    rw [Tree.children, hk, Kind.children]
  have hgs : gs.Sublist (t.children d) := by simp [hchildren]
  have hms : ms.Sublist (t.children d) := by simp [hchildren]
  have hlast : memberwise.toList.Sublist (t.children d) := by simp [hchildren]
  have hapart := Tree.children_pairwise ht d
  rw [hchildren, List.pairwise_append, List.pairwise_append] at hapart
  obtain ⟨⟨-, -, hgenerics⟩, -, hothers⟩ := hapart
  have hgs' := h.setParents ht hwaits hgs fun g hg => hfresh g (hgs.subset hg)
  have hms' := hrec.members ht hwaits hms (by rw [hk]; rfl) hgs'.filed fun m hm =>
    (hfresh m (hms.subset hm)).apart hgs' fun g hg => hgenerics g hg m hm
  have hlast' := hrec.parts (s := .type (.decl d)) ht hwaits hlast hms'.filed
    (fun i hi => ((hfresh i (hlast.subset hi)).apart hgs' fun g hg =>
      hothers g (List.mem_append_left ms hg) i hi).apart hms' fun m hm =>
        hothers m (List.mem_append_right gs hm) i hi) (by
      rintro i hi _ ⟨⟩ -
      exact .memberwise (by rw [hk, Option.mem_toList.mp hi]))
  exact (hgs'.below hgs).trans ((hms'.below hms).trans (hlast'.below hlast))

end Parts

theorem descends (fuel : Nat) : Descends t fuel := by
  induction fuel with
  | zero => exact fun _ h _ _ _ => ⟨.refl _, h⟩
  | succ fuel ih =>
      intro ds d s owner h hfresh hplaced hinit
      have hentered : Advances t (t.Below d) ds _ :=
        ⟨within_enter t owner s ds d, h.enter ht owner hfresh hplaced hinit⟩
      have hparts (hwaits : (t.kind d).waits = false) (c : NodeId) (hc : c ∈ t.children d) :
          Fresh t (declare t owner s (Declarations.setParent owner ds d) d) c :=
        hfresh.enter ht owner hwaits hc
      have hparents {is : List NodeId} (hwaits : (t.kind d).waits = false)
          (his : is.Sublist (t.children d)) :=
        hentered.trans ((hentered.filed.setParents ht hwaits his fun i hi =>
          hparts hwaits i (his.subset hi)).below his)
      rw [collectAt]
      split
      · next ms hk =>
          have hwaits : (t.kind d).waits = false := by rw [hk]; rfl
          have hms : ms.Sublist (t.children d) := by simp [Tree.children, hk, Kind.children]
          refine hentered.trans ((ih.parts ht hwaits hms hentered.filed (fun m hm => ?_) ?_).below
            hms)
          · exact hparts hwaits m (hms.subset hm)
          · simp
      · next hk =>
          have hwaits : (t.kind d).waits = false := by rw [hk]; rfl
          exact hentered.trans (ih.product ht hk hentered.filed (hparts hwaits))
      · next ms hk =>
          have hwaits : (t.kind d).waits = false := by rw [hk]; rfl
          have hms : ms.Sublist (t.children d) := by simp [Tree.children, hk, Kind.children]
          refine hentered.trans ((ih.members ht hwaits hms ?_ hentered.filed fun m hm => ?_).below
            hms)
          · rw [hk]
            rfl
          · exact hparts hwaits m (hms.subset hm)
      · next hk =>
          refine hparents (by rw [hk]; rfl) ?_
          simp [Tree.children, hk, Kind.children]
      · next hk =>
          refine hparents (by rw [hk]; rfl) ?_
          simp [Tree.children, hk, Kind.children]
      · next hk =>
          refine hparents (by rw [hk]; rfl) ?_
          simp [Tree.children, hk, Kind.children]
      · next hk =>
          refine hparents (by rw [hk]; rfl) ?_
          simp [Tree.children, hk, Kind.children]
      · exact hentered

theorem Filed.fresh_of_pending {ext : NodeId} {rest : List NodeId} (h : Filed t ds)
    (hpending : ds.pending = ext :: rest) {m : NodeId} (hm : m ∈ t.children ext) :
    Fresh t { ds with pending := rest } m := by
  have hext : ext ∈ ds.pending := by simp [hpending]
  intro x hx
  refine ⟨h.unseen ext hext m hm x hx, fun e he hex => ?_⟩
  have he' : e ∈ ds.pending := by simp [hpending, he]
  have hne : e ≠ ext := by
    rintro rfl
    have hnodup := h.nodup
    rw [hpending, List.nodup_cons] at hnodup
    exact hnodup.1 he
  have hinner : ¬ t.Below m e := fun hme => h.seen e he' (h.unseen ext hext m hm e hme)
  rcases hex.linear ht hx with hem | hme
  · -- Something else that waits would contain the extension, which has been seen.
    obtain ⟨q, hq, hmq⟩ := hem.parent fun heq => hinner (heq ▸ .refl m)
    obtain rfl := ht.parent_unique _ _ _ hm hmq
    rcases Tree.below_iff.mp hq with heq | ⟨c, hc, hbelow⟩
    · exact hne heq.symm
    · exact h.seen _ hext (h.unseen e he' c hc _ hbelow)
  · exact hinner hme

omit ht in
theorem Filed.pop {ext : NodeId} {rest : List NodeId} (h : Filed t ds)
    (hpending : ds.pending = ext :: rest) : Filed t { ds with pending := rest } := by
  have hrest {e : NodeId} (he : e ∈ rest) : e ∈ ds.pending := by simp [hpending, he]
  have hnodup := h.nodup
  rw [hpending, List.nodup_cons] at hnodup
  exact ⟨hnodup.2, fun e he => h.seen e (hrest he), fun e he => h.unfiled e (hrest he),
    fun e he => h.unseen e (hrest he), h.extended, h.placed, h.initializers⟩

omit ht in
theorem Filed.file {ext : NodeId} {rest : List NodeId} (h : Filed t ds)
    (hpending : ds.pending = ext :: rest) (o : Owner) :
    Filed t { ds with pending := rest, extended := ds.extended.insert ext o } := by
  have hpopped := h.pop hpending
  have hext : ext ∈ ds.pending := by simp [hpending]
  have hnodup := h.nodup
  rw [hpending, List.nodup_cons] at hnodup
  have hkeep (e : NodeId) (o' : Owner) (ho' : ds.extended.get? e = some o') :
      (ds.extended.insert ext o).get? e = some o' := by
    rw [Table.get?_insert, if_neg]
    · exact ho'
    · rintro rfl
      exact absurd ((h.unfiled ext hext).symm.trans ho') (by simp)
  refine ⟨hnodup.2, hpopped.seen, fun e he => ?_, hpopped.unseen, fun e o' ho' => ?_,
    fun d hd e he hde => ?_, fun p hp => (h.initializers p hp).mono hkeep⟩
  · rw [Table.get?_insert, if_neg]
    · exact hpopped.unfiled e he
    · rintro rfl
      exact hnodup.1 he
  · rw [Table.get?_insert] at ho'
    split at ho'
    · next heq => exact heq ▸ h.seen ext hext
    · exact h.extended e o' ho'
  · obtain ⟨o', ho'⟩ := Option.ne_none_iff_exists'.mp (h.placed d hd e he hde)
    simp [hkeep e o' ho']

theorem Filed.collectMembers {ext : NodeId} {rest ms : List NodeId} (h : Filed t ds)
    (hpending : ds.pending = ext :: rest) (hms : (t.kind ext).members = ms)
    (hsub : ms.Sublist (t.children ext)) (o : Owner) :
    Advances t (fun x => ∃ m ∈ ms, t.Below m x)
      { ds with pending := rest, extended := ds.extended.insert ext o }
      (collect t ext (.type o)
        { ds with pending := rest, extended := ds.extended.insert ext o } ms) := by
  have hfiled : (ds.extended.insert ext o).get? ext = some o := by simp
  refine .foldl (fun ds' m hm h hfresh hext => descends ht _ ext h hfresh ?_ ?_)
    ((Tree.children_pairwise ht ext).sublist hsub) (h.file hpending o) fun m hm => ?_
  · exact placed_of_child ht (hsub.subset hm) fun _ => by simp [hext, hfiled]
  · rintro ty ⟨⟩ hinit
    have hm : m ∈ (t.kind ext).members := hms ▸ hm
    exact .extended (hext ▸ hfiled) hm (Tree.isExplicitInit_of_members ht hm hinit)
  · exact h.fresh_of_pending ht hpending (hsub.subset hm)

theorem Filed.collectExtension {ext subject : NodeId} {rest ms : List NodeId} (h : Filed t ds)
    (hpending : ds.pending = ext :: rest) (hms : (t.kind ext).members = ms)
    (hsub : ms.Sublist (t.children ext)) :
    Filed t (collectExtension t { ds with pending := rest } ext subject ms) := by
  rw [Declarations.collectExtension]
  split
  · next o _ => exact (h.collectMembers ht hpending hms hsub o).filed
  · exact h.pop hpending

theorem Filed.collectPending (fuel : Nat) (h : Filed t ds) :
    Filed t (collectPending t fuel ds) := by
  induction fuel generalizing ds with
  | zero => exact h
  | succ fuel ih =>
      rw [Declarations.collectPending]
      split
      · exact h
      · next ext rest hpending =>
          dsimp only
          split
          · next hk =>
              refine ih (h.collectExtension ht hpending (by rw [hk]; rfl) ?_)
              simp [Tree.children, hk, Kind.children]
          · next hk =>
              refine ih (h.collectExtension ht hpending (by rw [hk]; rfl) ?_)
              simp [Tree.children, hk, Kind.children]
          · exact ih (h.pop hpending)

omit ht in
theorem child_of_declsOfUnit {u d : NodeId} (hd : d ∈ declsOfUnit t u) : d ∈ t.children u := by
  rw [declsOfUnit] at hd
  split at hd
  · next hu => simpa [Tree.children, hu, Kind.children] using hd
  · simp at hd

theorem declsOfUnits_pairwise {us : List NodeId}
    (hus : us.Pairwise fun u u' => ∀ x, ¬ (t.Below u x ∧ t.Below u' x)) :
    (us.flatMap (declsOfUnit t)).Pairwise fun d d' => ∀ x, ¬ (t.Below d x ∧ t.Below d' x) := by
  refine List.pairwise_flatMap.mpr ⟨fun u _ => ?_, hus.imp fun hapart d hd d' hd' x hx => ?_⟩
  · rw [declsOfUnit]
    split
    · next hu =>
        have hpairwise := Tree.children_pairwise ht u
        rwa [Tree.children, hu, Kind.children] at hpairwise
    · exact .nil
  · exact hapart x ⟨.of_child (child_of_declsOfUnit hd) hx.1,
      .of_child (child_of_declsOfUnit hd') hx.2⟩

theorem Filed.collectModule (h : Filed t ds) {m : NodeId} (hfresh : Fresh t ds m) :
    Advances t (t.Below m) ds (collectModule t ds m) := by
  rw [Declarations.collectModule]
  split
  · next us hk =>
      have hunits : us = t.children m := by rw [Tree.children, hk, Kind.children]
      have hbelow : ∀ d ∈ us.flatMap (declsOfUnit t), t.Below m d := by
        intro d hd
        obtain ⟨u, hu, hd⟩ := List.mem_flatMap.mp hd
        exact .of_child (hunits ▸ hu) (Tree.below_child (child_of_declsOfUnit hd))
      have hplaced {ds' : Declarations} : ∀ d ∈ us.flatMap (declsOfUnit t), Placed t ds' d := by
        intro d hd
        obtain ⟨u, hu, hd⟩ := List.mem_flatMap.mp hd
        refine placed_of_child ht (child_of_declsOfUnit hd) fun hwaits => ?_
        rw [declsOfUnit] at hd
        cases hk : t.kind u <;> simp [hk, Kind.waits] at hwaits hd
      have hdecls : Advances t _ ds (collect t m (.module ds.modules.length) ds
          (us.flatMap (declsOfUnit t))) :=
        .foldl (fun _ d hd h hfresh _ => descends ht _ m h hfresh (hplaced d hd) (by simp))
          (declsOfUnits_pairwise ht (hunits ▸ Tree.children_pairwise ht m)) h
          fun d hd => hfresh.below (hbelow d hd)
      have hwithin : Within (t.Below m) ds _ := hdecls.toWithin.widen (by
        rintro x ⟨d, hd, hx⟩
        exact (hbelow d hd).trans hx)
      have hfiled := hdecls.filed
      exact ⟨⟨hwithin.parents, hwithin.pending, hwithin.extended⟩, hfiled.nodup, hfiled.seen,
        hfiled.unfiled, hfiled.unseen, hfiled.extended, hfiled.placed, hfiled.initializers⟩
  · exact ⟨.refl ds, h⟩

theorem Filed.collectModules {ms : List NodeId} (hms : ms.Nodup) (h : Filed t ds)
    (hfresh : ∀ m ∈ ms, ∀ name us, t.kind m = .module name us → Fresh t ds m) :
    Filed t (ms.foldl (Declarations.collectModule t) ds) := by
  induction ms generalizing ds with
  | nil => exact h
  | cons m ms ih =>
      rw [List.nodup_cons] at hms
      rw [List.foldl_cons]
      cases hk : t.kind m with
      | module name us =>
          have hfirst := h.collectModule ht (hfresh m (by simp) name us hk)
          refine ih hms.2 hfirst.filed fun m' hm' name' us' hk' => ?_
          refine (hfresh m' (by simp [hm']) name' us' hk').later hfirst.toWithin ?_
          -- A node in both modules would put one of them into the other.
          intro e he x hx hex
          rcases (he.trans hex).linear ht hx with hbelow | hbelow
          · exact hms.1 (Tree.eq_of_below_module ht hk' hbelow ▸ hm')
          · exact hms.1 (Tree.eq_of_below_module ht hk hbelow ▸ hm')
      | _ =>
          have hsame : Declarations.collectModule t ds m = ds := by
            rw [Declarations.collectModule, hk]
          rw [hsame]
          exact ih hms.2 h fun m' hm' => hfresh m' (by simp [hm'])

theorem filed_ofTree : Filed t (ofTree t) :=
  .collectPending ht _ (.collectModules ht ht.modules_nodup (filed_empty t)
    fun m _ _ _ _ => fresh_empty t m)

theorem initializes_ofTree {ty i : NodeId} (hi : i ∈ (ofTree t).initializersOf ty) :
    t.Initializes (ofTree t).extended ty i := by
  obtain ⟨p, hp, hsome⟩ := List.mem_filterMap.mp hi
  split at hsome
  · next heq =>
      cases hsome
      exact heq ▸ (filed_ofTree ht).initializers p hp
  · cases hsome

theorem unseen_of_unfiled {ext m : NodeId} (hext : (t.kind ext).waits = true)
    (hunfiled : (ofTree t).extended.get? ext = none) (hm : m ∈ t.children ext) :
    (ofTree t).parents.get? m = none := by
  refine Decidable.byContradiction fun hseen => ?_
  exact (filed_ofTree ht).placed m hseen ext hext hm hunfiled

end Declarations

end LanguageService
