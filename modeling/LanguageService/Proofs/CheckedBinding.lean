import LanguageService.Proofs.CheckedExpr

namespace LanguageService.Check

variable {e : Env} {run : Run} {opened : NodeId → Prop} {s : State}

section Patterns

variable (ht : e.tree.WellFormed)

include ht

theorem moves_setVar {v : NodeId} {ty : Ty} (hinv : Invariant e.tree opened s)
    (hv : (e.tree.kind v).isVar = true)
    (hopen : ∃ b, (e.tree.kind b).isBinding = true ∧ e.tree.Below b v ∧ opened b)
    (hsoft : s.Soft v) (hguard : s.Guards e.tree v) (hproper : ty.proper e.tree = true) :
    Moves e.tree opened (· = v) s { s with types := s.types.insert v ty } := by
  have hsteady := not_isSteady ht (Kind.isDeclaration_of_isVar hv)
  have heffect : Effect e.tree (· = v) s { s with types := s.types.insert v ty } := by
    refine .setType ?_ (fun h => absurd h hsteady) fun _ hne => absurd rfl hne
    intro old _ hold hne
    rcases hsoft with hnone | herror
    · exact absurd (hnone.symm.trans hold) (by simp)
    · exact absurd (Option.some.inj (hold.symm.trans herror)) (hne hv)
  refine ⟨heffect, ⟨fun _ => rfl, fun d _ hvar _ => ?_⟩,
    hinv.setType ht heffect ?_ hproper ?_ ?_ ?_ ?_ ?_ ?_⟩
  · rw [Table.get?_insert, if_neg]
    rintro rfl
    simp [hv] at hvar
  · rintro x hx rfl
    exact absurd hx hsteady
  · intro x y k hk
    simp [hk, Kind.isVar] at hv
  · exact fun _ _ => hguard
  · intro hexpr
    simp [Kind.isVar_of_isExpr hexpr] at hv
  · refine fun b hb => ⟨hguard b hb.isBinding hb.below, fun _ _ hclosed => absurd ?_ hclosed⟩
    obtain ⟨b', hb', hbelow, hopen⟩ := hopen
    exact Tree.binding_unique ht hb' hb.isBinding hbelow hb.below ▸ hopen
  · rintro w b ⟨⟨x, hk⟩, -, -⟩
    simp [hk, Kind.isVar] at hv
  · intro introducer ps body synthesized hk
    simp [hk, Kind.isVar] at hv

theorem bindVar_spec {v : NodeId} {ty : Ty} (inBody : Bool) (hinv : Invariant e.tree opened s)
    (hv : (e.tree.kind v).isVar = true)
    (hopen : ∃ b, (e.tree.kind b).isBinding = true ∧ e.tree.Below b v ∧ opened b)
    (hsoft : s.Soft v) (hguard : s.Guards e.tree v) (hproper : ty.proper e.tree = true) :
    Ends (bindVar e v ty inBody) s fun _ s' =>
      Moves e.tree opened (· = v) s s' ∧ s'.types.get? v = some ty := by
  unfold bindVar
  split
  · next x hk =>
      have hmoves : Moves e.tree opened (· = v) s
          { s with frames := bindLocal x.text v s.frames } :=
        moves_frames hinv (forall_mem_bindLocal ⟨.inl hv, by simp [Kind.declared, hk],
          Tree.not_isImplied ht (Kind.isParameter_of_isVar hv)⟩ hinv.frames)
      refine .bind (.modify (Q := fun _ s' => s' = _) rfl) ?_
      rintro - s₁ rfl
      refine .modify ⟨?_, by simp⟩
      exact hmoves.trans (moves_setVar ht hmoves.invariant hv hopen hsoft hguard hproper)
  · exact .modify ⟨moves_setVar ht hinv hv hopen hsoft hguard hproper, by simp⟩

omit ht in
theorem parts_spec (p : NodeId) {ty : Ty} (n : Nat) (hproper : ty.proper e.tree = true)
    (s : State) :
    Ends (parts e p ty n) s fun ts s' => Quiet s s' ∧ ts.length = n ∧
      (∀ a ∈ ts, a.proper e.tree = true) ∧
        ∀ as, ty = .tuple as → as.length = n → ts = as := by
  have hunknown : ∀ a ∈ List.replicate n Ty.error, a.proper e.tree = true := by
    intro a ha
    rw [List.eq_of_mem_replicate ha]
    rfl
  have hrefuse (hty : ∀ as, ty = .tuple as → as.length ≠ n) :
      Ends (parts.refuse e p ty n (List.replicate n .error)) s fun ts s' =>
        Quiet s s' ∧ ts.length = n ∧ (∀ a ∈ ts, a.proper e.tree = true) ∧
          ∀ as, ty = .tuple as → as.length = n → ts = as :=
    (complain_spec e _ _ s).bind fun _ _ h =>
      .pure ⟨h.1, by simp, hunknown, fun as has hlength => absurd hlength (hty as has)⟩
  unfold parts
  dsimp only
  split
  · exact .pure ⟨.refl s, by simp, hunknown, by simp⟩
  · next ts =>
      split
      · next hlength =>
          rw [Ty.proper, Ty.allProper_eq_all, List.all_eq_true] at hproper
          refine .pure ⟨.refl s, hlength, hproper, ?_⟩
          rintro as ⟨⟩ -
          rfl
      · next hlength =>
          refine hrefuse ?_
          rintro as ⟨⟩
          exact hlength
  · next hnot => exact hrefuse fun as has => absurd has (hnot as)

omit ht in
theorem patternParts_eq_each (inBody : Bool) (l : List (NodeId × Ty)) :
    patternParts run inBody l = each run (l.map fun p => .pattern p.1 p.2 inBody) := by
  induction l with
  | nil => rfl
  | cons p l ih =>
      obtain ⟨p, ty⟩ := p
      rw [patternParts, ih]
      simp [each]

theorem pattern_spec (hrun : Obeys e.tree run) {p : NodeId} {ty : Ty} {inBody : Bool}
    (hinv : Invariant e.tree opened s)
    (hready : Job.Ready e.tree opened s (.pattern p ty inBody)) :
    Ends (pattern e run p ty inBody) s fun _ s' => Moves e.tree opened (e.tree.Below p) s s' ∧
      ∀ a, Job.Result e.tree a s' (.pattern p ty inBody) := by
  obtain ⟨hp, hproper, ⟨b, hb, hbp, hopen⟩, hvars⟩ := hready
  rw [pattern]
  split
  · next v hk =>
      have hchild : (Kind.isVar, v) ∈ (e.tree.kind p).parts := by simp [hk, Kind.parts]
      have hbelow := Tree.below_child (Tree.child_of_part hchild)
      have hv := ht.fits p _ hchild
      obtain ⟨hsoft, hguard⟩ := hvars v hbelow hv
      refine (bindVar_spec ht inBody hinv hv ⟨b, hb, hbp.trans hbelow, hopen⟩ hsoft hguard
        hproper).mono fun _ s' h => ⟨h.1.widen fun x hx => hx ▸ hbelow, ?_⟩
      rintro - - w c hgives -
      cases hgives with
      | name hp' =>
          cases hk.symm.trans hp'
          exact h.2
      | tuple hp' => cases hk.symm.trans hp'
  · next es hk =>
      refine (parts_spec p es.length hproper s).bind ?_
      rintro ts s₁ ⟨hquiet, hlength, hts, hsame⟩
      have hmoves : Moves e.tree opened nowhere s s₁ := hquiet.moves hinv
      have hchild : ∀ q ∈ es, (Kind.isPattern, q) ∈ (e.tree.kind p).parts := by
        intro q hq
        simp [hk, Kind.parts, hq]
      have hchildren : e.tree.children p = es := by rw [Tree.children, hk, Kind.children]
      have hapart : ((es.zip ts).map fun q => Job.pattern q.1 q.2 inBody).Pairwise
          (Job.Apart e.tree) := by
        have hzip : (es.zip ts).map Prod.fst = es := List.map_fst_zip (by omega)
        have hpairwise := Tree.children_pairwise ht p
        rw [hchildren, ← hzip, List.pairwise_map] at hpairwise
        exact List.pairwise_map.mpr hpairwise
      rw [patternParts_eq_each]
      refine (each_spec ht hrun hapart hmoves.invariant ?_).mono ?_
      · intro j hj
        obtain ⟨⟨q, a⟩, hqa, rfl⟩ := List.mem_map.mp hj
        obtain ⟨hq, ha⟩ := List.of_mem_zip hqa
        refine ⟨ht.fits p _ (hchild q hq), hts a ha,
          ⟨b, hb, hbp.trans (Tree.below_child (hchildren ▸ hq)), hopen⟩, fun v hbelow hv => ?_⟩
        obtain ⟨hsoft, hguard⟩ := hvars v (.of_child (hchildren ▸ hq) hbelow) hv
        exact ⟨hmoves.effect.soft v hv id hguard hsoft, hguard.later hmoves.effect⟩
      · rintro - s₂ ⟨hmoves', hresults⟩
        refine ⟨hmoves.anywhere.trans (hmoves'.widen ?_), ?_⟩
        · rintro x ⟨j, hj, hx⟩
          obtain ⟨⟨q, a⟩, hqa, rfl⟩ := List.mem_map.mp hj
          exact .of_child (hchildren ▸ (List.of_mem_zip hqa).1) hx
        · rintro - hfits w c hgives herror
          cases hgives with
          | name hp' => cases hk.symm.trans hp'
          | @tuple _ _ as q hp' hq hgives =>
              cases hk.symm.trans hp'
              cases hfits with
              | name hp' => cases hk.symm.trans hp'
              | wildcard hp' => cases hk.symm.trans hp'
              | tuple hp' has hfits =>
                  cases hk.symm.trans hp'
                  obtain rfl := hsame as rfl has
                  obtain ⟨_, hresult⟩ := hresults (.pattern q.1 q.2 inBody)
                    (List.mem_map.mpr ⟨q, hq, rfl⟩)
                  exact hresult (hfits q hq) w c hgives herror
  · next hk => simp [hk, Kind.isPattern] at hp
  · next hname htuple _ =>
      refine .pure ⟨.refl hinv, ?_⟩
      rintro - - w c hgives -
      cases hgives with
      | name hp' => exact absurd hp' (hname _)
      | tuple hp' => exact absurd hp' (htuple _)

end Patterns

theorem not_isSteady_below {t : Tree} (ht : t.WellFormed) {p x : NodeId}
    (hp : (t.kind p).isPattern = true) (hx : t.Below p x) : ¬ t.IsSteady x := by
  intro hsteady
  rcases Tree.isPattern_or_isVar_of_below ht hp hx with hkind | hkind
  · rcases hsteady with hexpr | ha
    · cases hk : t.kind x <;> simp [hk, Kind.isPattern, Kind.isExpr] at hkind hexpr
    · have htype := ha.isType ht
      cases hk : t.kind x <;> simp [hk, Kind.isPattern, Kind.isType] at hkind htype
  · exact not_isSteady ht (Kind.isDeclaration_of_isVar hkind) hsteady

section Bindings

variable {b p sub : NodeId} {initializer ascription : Option NodeId} {introducer : Site}
  {how : Introducer} {ctx : Context}

theorem bindingTypes_eq : bindingTypes e run p ascription initializer ctx = (do
    let declared ← ascription.mapM fun a => run (.typeExpr a ctx)
    let found ← initializer.mapM fun i => run (.expr i ctx)
    match declared, initializer, found with
    | some expected, some i, some ty => expect e expected ty i
    | _, _, _ => pure ()
    setType p ((declared.or found).getD .error)
    return (declared.or found).getD .error) := by
  cases ascription <;> cases initializer <;> simp [bindingTypes]

variable (ht : e.tree.WellFormed) (hrun : Obeys e.tree run)
  (hb : e.tree.kind b = .binding p initializer)
  (hp : e.tree.kind p = .bindingPattern introducer how sub ascription)

include ht hb

omit hb in
theorem guards_of_below (hb : (e.tree.kind b).isBinding = true) (hchecked : s.IsChecked b)
    {x : NodeId} (hx : e.tree.Below b x) : s.Guards e.tree x := by
  intro b' hb' hbelow
  rwa [Tree.binding_unique ht hb' hb hbelow hx]

omit hb in
theorem opens_of_below (hb : (e.tree.kind b).isBinding = true) (hchecked : s.IsChecked b)
    (hopen : opened b) {x : NodeId} (hx : e.tree.Below b x) : s.Opens e.tree opened x := by
  intro b' hb' hbelow
  rw [Tree.binding_unique ht hb' hb hbelow hx]
  exact ⟨hchecked, hopen⟩

include hp hrun

theorem ascription_spec (hinv : Invariant e.tree opened s) (hctx : ctx.Plain e.tree)
    (hchecked : s.IsChecked b) (hopen : opened b) :
    Ends (ascription.mapM fun a => run (.typeExpr a ctx)) s fun declared s' =>
      Moves e.tree opened (fun x => ascription = some x) s s' ∧
        (∀ ty, declared = some ty → ty.proper e.tree = true) ∧
        (ascription = none → declared = none) ∧
        ∀ a, ascription = some a → ∃ ty, declared = some ty ∧ s'.types.get? a = some ty := by
  cases ascription with
  | none => exact .pure ⟨.refl hinv, by simp, fun _ => rfl, by simp⟩
  | some a =>
      have hbinding : (e.tree.kind b).isBinding = true := by rw [hb]; rfl
      have hpb : p ∈ e.tree.children b := by simp [Tree.children, hb, Kind.children]
      have hap : (Kind.isType, a) ∈ (e.tree.kind p).parts := by simp [hp, Kind.parts]
      have hab : e.tree.Below b a := .of_child hpb (Tree.below_child (Tree.child_of_part hap))
      have hascription : e.tree.IsAscription a := ⟨p, introducer, how, sub, hp⟩
      rw [Option.mapM_some, map_eq_pure_bind]
      refine (hrun opened (.typeExpr a ctx) s hinv ⟨ht.fits p _ hap, hctx, fun _ =>
        opens_of_below ht hbinding hchecked hopen hab⟩).bind ?_
      rintro ty s' ⟨hmoves, hplain, htype⟩
      refine .pure ⟨hmoves.widen fun x hx => by rw [hx], ?_, by simp, ?_⟩
      · rintro ty' ⟨⟩
        exact Ty.proper_of_plain hplain
      · rintro a' ⟨⟩
        exact ⟨ty, rfl, (htype hascription).2⟩

omit hp in
theorem initializer_spec (hinv : Invariant e.tree opened s) (hctx : ctx.Plain e.tree)
    (hchecked : s.IsChecked b) (hopen : opened b) (hconcerns : s.Concerns e.tree opened b)
    (hblank : ∀ i, initializer = some i → s.Blank e.tree i) :
    Ends (initializer.mapM fun i => run (.expr i ctx)) s fun found s' =>
      Moves e.tree opened (fun x => ∃ i, initializer = some i ∧ e.tree.Below i x) s s' ∧
        (∀ ty, found = some ty → ty.proper e.tree = true) ∧
        ∀ i, initializer = some i →
          ∃ ty, found = some ty ∧ s'.types.get? i = some ty ∧ Finished e.tree i s' := by
  cases initializer with
  | none => exact .pure ⟨.refl hinv, by simp, by simp⟩
  | some i =>
      have hbinding : (e.tree.kind b).isBinding = true := by rw [hb]; rfl
      have hib : (Kind.isExpr, i) ∈ (e.tree.kind b).parts := by simp [hb, Kind.parts]
      have hbelow := Tree.below_child (Tree.child_of_part hib)
      rw [Option.mapM_some, map_eq_pure_bind]
      refine (hrun opened (.expr i ctx) s hinv ⟨ht.fits b _ hib, hctx,
        opens_of_below ht hbinding hchecked hopen hbelow, hblank i rfl,
        hconcerns.around hbinding hbelow⟩).bind ?_
      rintro ty s' ⟨hmoves, -, hproper, htype, hfinished, -⟩
      refine .pure ⟨hmoves.widen fun x hx => ⟨i, rfl, hx⟩, ?_, ?_⟩
      · rintro ty' ⟨⟩
        exact hproper
      · rintro i' ⟨⟩
        exact ⟨ty, rfl, htype, hfinished⟩

omit hrun in
theorem ascription_of_binding {a : NodeId} (ha : ascription = some a) :
    e.tree.IsAscription a ∧ e.tree.Below b a ∧ (e.tree.kind a).isType = true := by
  subst ha
  have hpb : p ∈ e.tree.children b := by simp [Tree.children, hb, Kind.children]
  have hap : (Kind.isType, a) ∈ (e.tree.kind p).parts := by simp [hp, Kind.parts]
  exact ⟨⟨p, introducer, how, sub, hp⟩,
    .of_child hpb (Tree.below_child (Tree.child_of_part hap)), ht.fits p _ hap⟩

omit hrun hp in
theorem initializer_of_binding {i : NodeId} (hi : initializer = some i) :
    i ∈ e.tree.children b ∧ ∀ x, e.tree.Below i x → (e.tree.kind x).isExpr = true := by
  subst hi
  have hib : (Kind.isExpr, i) ∈ (e.tree.kind b).parts := by simp [hb, Kind.parts]
  exact ⟨Tree.child_of_part hib, fun x hx => Tree.isExpr_of_below ht (ht.fits b _ hib) hx⟩

theorem bindingParts_spec {after : Option Ty → Option Ty → CheckM Ty} {Q : Ty → State → Prop}
    (hinv : Invariant e.tree opened s) (hctx : ctx.Plain e.tree) (hchecked : s.IsChecked b)
    (hopen : opened b) (hconcerns : s.Concerns e.tree opened b)
    (hblank : ∀ i, initializer = some i → s.Blank e.tree i)
    (hafter : ∀ declared found s₁,
      Moves e.tree opened (fun x => e.tree.Below b x ∧ (e.tree.kind x).isVar = false) s s₁ →
      ((declared.or found).getD .error).proper e.tree = true →
      (ascription = none → declared = none) →
      (∀ a, ascription = some a → ∃ ty, declared = some ty ∧ s₁.types.get? a = some ty) →
      (∀ i, initializer = some i →
        ∃ ty, found = some ty ∧ s₁.types.get? i = some ty ∧ Finished e.tree i s₁) →
      Ends (after declared found) s₁ Q) :
    Ends (ascription.mapM (fun a => run (.typeExpr a ctx)) >>= fun declared =>
      initializer.mapM (fun i => run (.expr i ctx)) >>= fun found => after declared found) s Q := by
  have hbinding : (e.tree.kind b).isBinding = true := by rw [hb]; rfl
  have hopens {s₁ : State} (h : s₁.IsChecked b) {x : NodeId} (hx : e.tree.Below b x) :
      s₁.Opens e.tree opened x := opens_of_below ht hbinding h hopen hx
  refine (ascription_spec ht hrun hb hp hinv hctx hchecked hopen).bind ?_
  rintro declared s₁ ⟨hmoves₁, hproper₁, hnone₁, htype₁⟩
  have hchecked₁ := hmoves₁.effect.checked b hchecked
  have hblank₁ : ∀ i, initializer = some i → s₁.Blank e.tree i := by
    intro i hi
    obtain ⟨hchild, hexpr⟩ := initializer_of_binding ht hb hi
    refine (hblank i hi).later ht (hopens hchecked (Tree.below_child hchild)) (hexpr i (.refl i))
      hmoves₁.effect ?_
    rintro x ⟨hx, ha⟩
    exact Kind.not_isExpr_of_isType (ascription_of_binding ht hb hp ha).2.2 (hexpr x hx)
  refine (initializer_spec ht hrun hb hmoves₁.invariant hctx hchecked₁ hopen
    (hconcerns.later hmoves₁) hblank₁).bind ?_
  rintro found s₂ ⟨hmoves₂, hproper₂, hresult₂⟩
  refine hafter declared found s₂ (.trans (hmoves₁.widen ?_) (hmoves₂.widen ?_)) ?_ hnone₁ ?_
    hresult₂
  · intro x hx
    obtain ⟨-, hbelow, htype⟩ := ascription_of_binding ht hb hp hx
    exact ⟨hbelow, Kind.isVar_of_isType htype⟩
  · rintro x ⟨i, hi, hx⟩
    obtain ⟨hchild, hexpr⟩ := initializer_of_binding ht hb hi
    exact ⟨.of_child hchild hx, Kind.isVar_of_isExpr (hexpr x hx)⟩
  · cases hdeclared : declared with
    | some ty => exact hproper₁ ty hdeclared
    | none =>
        cases hfound : found with
        | some ty => exact hproper₂ ty hfound
        | none => rfl
  · intro a ha
    obtain ⟨hsteady, hbelow, htype⟩ := ascription_of_binding ht hb hp ha
    obtain ⟨ty, hty, ha₁⟩ := htype₁ a ha
    refine ⟨ty, hty, ?_⟩
    rw [hmoves₂.effect.types a (.inr hsteady) ?_ (hopens hchecked₁ hbelow).guards, ha₁]
    rintro ⟨i, hi, hx⟩
    exact Kind.not_isExpr_of_isType htype ((initializer_of_binding ht hb hi).2 a hx)

omit hb hrun in
theorem moves_setPattern {ty : Ty} (hinv : Invariant e.tree opened s)
    (hproper : ty.proper e.tree = true) :
    Moves e.tree opened nowhere s { s with types := s.types.insert p ty } := by
  have hsteady : ¬ e.tree.IsSteady p := by
    rintro (hexpr | ha)
    · simp [hp, Kind.isExpr] at hexpr
    · simpa [hp, Kind.isType] using ha.isType ht
  refine (moves_setType ht hinv (by simp [hp, Kind.isDeclaration]) hproper
    (fun h => absurd h hsteady) fun h => absurd (.inl h) hsteady).within ?_
  rintro x (h | hvar) - rfl
  · exact hsteady h
  · simp [hp, Kind.isVar] at hvar

theorem bindingTypes_spec (hinv : Invariant e.tree opened s) (hctx : ctx.Plain e.tree)
    (hchecked : s.IsChecked b) (hopen : opened b) (hconcerns : s.Concerns e.tree opened b)
    (hblank : ∀ i, initializer = some i → s.Blank e.tree i) :
    Ends (bindingTypes e run p ascription initializer ctx) s fun ty s' =>
      Moves e.tree opened (fun x => e.tree.Below b x ∧ (e.tree.kind x).isVar = false) s s' ∧
        ty.proper e.tree = true ∧
        (∀ n, ascription.or initializer = some n → s'.types.get? n = some ty) ∧
        (∀ i, initializer = some i → Finished e.tree i s') ∧
        (s'.Clean → ∀ a i, ascription = some a → initializer = some i → ∃ expected found,
          s'.types.get? a = some expected ∧ s'.types.get? i = some found ∧
            found.compatible expected = true) := by
  have hbinding : (e.tree.kind b).isBinding = true := by rw [hb]; rfl
  rw [bindingTypes_eq]
  refine bindingParts_spec ht hrun hb hp hinv hctx hchecked hopen hconcerns hblank ?_
  intro declared found s₁ hmoves hproper hnone hdeclared hfound
  have hend {s₂ : State} (hquiet : Quiet s₁ s₂)
      (hcompatible : s₂.Clean → ∀ expected i ty, declared = some expected →
        initializer = some i → found = some ty → ty.compatible expected = true) :
      Ends (setType p ((declared.or found).getD .error) >>= fun _ =>
        pure ((declared.or found).getD .error)) s₂ fun ty s' =>
        Moves e.tree opened (fun x => e.tree.Below b x ∧ (e.tree.kind x).isVar = false) s s' ∧
          ty.proper e.tree = true ∧
          (∀ n, ascription.or initializer = some n → s'.types.get? n = some ty) ∧
          (∀ i, initializer = some i → Finished e.tree i s') ∧
          (s'.Clean → ∀ a i, ascription = some a → initializer = some i → ∃ expected found,
            s'.types.get? a = some expected ∧ s'.types.get? i = some found ∧
              found.compatible expected = true) := by
    have hmoves₂ : Moves e.tree opened nowhere s₁ s₂ := hquiet.moves hmoves.invariant
    have hmoves' := hmoves₂.trans (moves_setPattern ht hp hmoves₂.invariant hproper)
    refine .bind (.modify (Q := fun _ s' => s' = _) rfl) ?_
    rintro - s₃ rfl
    have hatype : ∀ a, ascription = some a → ∃ ty, declared = some ty ∧
        (s₂.types.insert p ((declared.or found).getD .error)).get? a = some ty := by
      intro a ha
      obtain ⟨hsteady, hbelow, -⟩ := ascription_of_binding ht hb hp ha
      obtain ⟨ty, hty, hatype⟩ := hdeclared a ha
      refine ⟨ty, hty, ?_⟩
      exact (hmoves'.effect.types a (.inr hsteady) id
        (guards_of_below ht hbinding (hmoves.effect.checked b hchecked) hbelow)).trans hatype
    have hitype : ∀ i, initializer = some i → ∃ ty, found = some ty ∧
        (s₂.types.insert p ((declared.or found).getD .error)).get? i = some ty := by
      intro i hi
      obtain ⟨ty, hty, hitype, hfinished⟩ := hfound i hi
      have hsteady : e.tree.IsSteady i := .inl ((initializer_of_binding ht hb hi).2 i (.refl i))
      refine ⟨ty, hty, ?_⟩
      exact (hmoves'.effect.types i hsteady id (hfinished.guards i (.refl i))).trans hitype
    refine .pure ⟨hmoves.trans hmoves'.anywhere, hproper, fun n hn => ?_, fun i hi => ?_,
      fun hclean a i ha hi => ?_⟩
    · rcases Option.or_eq_some_iff.mp hn with ha | ⟨ha, hi⟩
      · obtain ⟨ty, rfl, hty⟩ := hatype n ha
        exact hty
      · obtain ⟨ty, rfl, hty⟩ := hitype n hi
        rw [hnone ha] at hty ⊢
        exact hty
    · obtain ⟨ty, -, -, hfinished⟩ := hfound i hi
      exact hfinished.later ht hmoves'.effect fun x hx => hx.2
    · obtain ⟨expected, hexpected, ha'⟩ := hatype a ha
      obtain ⟨ty, hty, hi'⟩ := hitype i hi
      exact ⟨expected, ty, ha', hi', hcompatible hclean expected i ty hexpected hi hty⟩
  split
  · next expected i ty =>
      refine (expect_spec e expected ty i s₁).bind ?_
      rintro - s₂ ⟨hquiet, hcompatible⟩
      refine hend hquiet ?_
      rintro hclean _ _ _ ⟨⟩ ⟨⟩ ⟨⟩
      exact hcompatible hclean
  · next hnone =>
      exact hend (.refl s₁) fun _ expected i ty hexpected hi hty =>
        (hnone expected i ty hexpected hi hty).elim

omit ht hrun hb hp in
theorem isChecked_insert (s : State) (b b' : NodeId) :
    State.IsChecked { s with checkedBindings := s.checkedBindings.insert b () } b' ↔
      b' = b ∨ s.IsChecked b' := by
  by_cases heq : b = b'
  · subst heq
    simp [State.IsChecked, Table.contains]
  · simp [State.IsChecked, Table.contains, heq, Ne.symm heq]

omit ht hrun hb hp in
theorem effect_mark {t : Tree} {region : NodeId → Prop} (s : State) (b : NodeId) :
    Effect t region s { s with checkedBindings := s.checkedBindings.insert b () } :=
  ⟨id, fun _ _ _ h _ => h, fun b' h => (isChecked_insert s b b').mpr (.inr h),
    fun _ _ _ _ => rfl, fun _ _ _ _ => rfl, fun _ _ _ _ => id, .refl _⟩

omit ht hrun hb hp in
theorem Invariant.opening {t : Tree} (hinv : Invariant t opened s) {b : NodeId}
    (hunchecked : ¬ s.IsChecked b) :
    Invariant t (fun x => opened x ∨ x = b)
      { s with checkedBindings := s.checkedBindings.insert b () } where
  done := by
    intro hclean b' hb' hchecked hclosed
    rw [not_or] at hclosed
    exact hinv.done hclean b' hb' (((isChecked_insert s b b').mp hchecked).resolve_left hclosed.2)
      hclosed.1
  bound := fun v hv hsoft b' hb' hbelow =>
    (isChecked_insert s b b').mpr (.inr (hinv.bound v hv hsoft b' hb' hbelow))
  untouched := fun b' hb' hunchecked => hinv.untouched b' hb' fun h =>
    hunchecked ((isChecked_insert s b b').mpr (.inr h))
  frames := hinv.frames
  proper := hinv.proper
  plain := hinv.plain
  subjects := hinv.subjects
  metatypes := hinv.metatypes
  points := hinv.points
  inText := hinv.inText
  entered := fun b' v hb' hv => (isChecked_insert s b b').mpr (.inr (hinv.entered b' v hb' hv))
  stored := by
    intro p v b' a hsets hp
    refine (hinv.stored p v b' a hsets hp).imp_right fun ⟨hv, hclosed⟩ => ⟨hv, ?_⟩
    rintro (hopen | rfl)
    · exact hclosed hopen
    · exact hunchecked (hinv.entered b' v hsets.binds (by simp [hv]))
  inputs := hinv.inputs

omit ht hrun hb hp in
theorem Invariant.closing {t : Tree} (hinv : Invariant t (fun x => opened x ∨ x = b) s)
    (h : s.Clean → ∀ x, t.Below b x → (s.program t).Lawful x) : Invariant t opened s where
  done := by
    intro hclean b' hb' hchecked hclosed
    by_cases heq : b' = b
    · rw [heq]
      exact h hclean
    · exact hinv.done hclean b' hb' hchecked (by simp [hclosed, heq])
  bound := hinv.bound
  untouched := hinv.untouched
  frames := hinv.frames
  proper := hinv.proper
  plain := hinv.plain
  subjects := hinv.subjects
  metatypes := hinv.metatypes
  points := hinv.points
  inText := hinv.inText
  entered := hinv.entered
  stored := fun p v b' a hsets hp => (hinv.stored p v b' a hsets hp).imp_right fun h =>
    ⟨h.1, fun hopen => h.2 (.inl hopen)⟩
  inputs := hinv.inputs

omit ht hrun in
theorem lawful_of_binding {ty : Ty}
    (hsource : ∀ n, ascription.or initializer = some n → s.types.get? n = some ty)
    (hcompatible : ∀ a i, ascription = some a → initializer = some i → ∃ expected found,
      s.types.get? a = some expected ∧ s.types.get? i = some found ∧
        found.compatible expected = true)
    (hgives : e.tree.Fits sub ty → ∀ v c, e.tree.Gives v c sub ty → c ≠ .error →
      s.types.get? v = some c) : (s.program e.tree).Lawful b where
  accepts := by
    refine .of_binding hb fun i _ _ _ a hi hkind => ?_
    obtain ⟨-, -, -, ha⟩ := Kind.bindingPattern.inj (hp.symm.trans hkind)
    exact hcompatible a i ha hi
  constructs := fun _ _ _ hcall => by cases hb.symm.trans hcall
  takesApart := by
    intro q i _ _ sub' ascription' n ty' hk hkind hn hty hfits
    obtain ⟨rfl, rfl⟩ := Kind.binding.inj (hb.symm.trans hk)
    obtain ⟨-, -, rfl, rfl⟩ := Kind.bindingPattern.inj (hp.symm.trans hkind)
    obtain rfl := Option.some.inj (hty.symm.trans (hsource n hn))
    exact hgives hfits

theorem unchecked_spec (inBody : Bool) (hinv : Invariant e.tree opened s) (hctx : ctx.Plain e.tree)
    (hunchecked : ¬ s.IsChecked b) (hneed : s.AllNeed e.tree opened b) :
    Ends (bindingTypes e run p ascription initializer ctx >>= fun ty =>
      run (.pattern sub ty inBody)) { s with checkedBindings := s.checkedBindings.insert b () }
      fun _ s' =>
        Moves e.tree (fun x => opened x ∨ x = b) (e.tree.Below b)
          { s with checkedBindings := s.checkedBindings.insert b () } s' ∧
        (s'.Clean → ∀ x, e.tree.Below b x → (s'.program e.tree).Lawful x) := by
  have hbinding : (e.tree.kind b).isBinding = true := by rw [hb]; rfl
  have hpb : p ∈ e.tree.children b := by simp [Tree.children, hb, Kind.children]
  have hsub : (Kind.isPattern, sub) ∈ (e.tree.kind p).parts := by simp [hp, Kind.parts]
  have hchild := Tree.child_of_part hsub
  have hmark : State.IsChecked { s with checkedBindings := s.checkedBindings.insert b () } b :=
    (isChecked_insert s b b).mpr (.inl rfl)
  refine (bindingTypes_spec ht hrun hb hp (hinv.opening hunchecked) hctx hmark (.inr rfl)
    hneed.opening ?_).bind ?_
  · intro i hi x hx hexpr
    exact hinv.untouched b hbinding hunchecked x
      (.of_child (initializer_of_binding ht hb hi).1 hx) hexpr
  · rintro ty s₂ ⟨hmoves, hproper, hsource, hfinished, hcompatible⟩
    have hvars : ∀ v, e.tree.Below sub v → (e.tree.kind v).isVar = true →
        s₂.Soft v ∧ s₂.Guards e.tree v := by
      intro v hv hvar
      have hbelow : e.tree.Below b v := .of_child hpb (.of_child hchild hv)
      have hguard := guards_of_below ht hbinding hmark hbelow
      have hsoft : s.Soft v := by
        by_contra hsoft
        exact hunchecked (hinv.bound v hvar hsoft b hbinding hbelow)
      exact ⟨hmoves.effect.soft v hvar (by simp [hvar]) hguard hsoft, hguard.later hmoves.effect⟩
    refine (hrun _ (.pattern sub ty inBody) s₂ hmoves.invariant
      ⟨ht.fits p _ hsub, hproper, ⟨b, hbinding, .of_child hpb (Tree.below_child hchild), .inr rfl⟩,
        hvars⟩).mono ?_
    rintro _ s₃ ⟨hmoves', hgives⟩
    have hmoves₃ := Moves.trans (hmoves.widen fun x hx => hx.1)
      (hmoves'.widen fun x hx => .of_child hpb (.of_child hchild hx))
    refine ⟨hmoves₃, fun hclean x hx => ?_⟩
    have hbelow : ∀ y, e.tree.Below sub y → ¬ e.tree.IsSteady y := fun y hy =>
      not_isSteady_below ht (ht.fits p _ hsub) hy
    rcases Tree.below_iff.mp hx with rfl | ⟨c, hc, hx⟩
    · have hatype : ∀ a, ascription = some a → s₃.types.get? a = s₂.types.get? a := by
        intro a ha
        obtain ⟨hascription, hax, -⟩ := ascription_of_binding ht hb hp ha
        exact hmoves'.effect.types a (.inr hascription) (hbelow a · (.inr hascription))
          ((guards_of_below ht hbinding hmark hax).later hmoves.effect)
      have hitype : ∀ i, initializer = some i → s₃.types.get? i = s₂.types.get? i := by
        intro i hi
        have hsteady : e.tree.IsSteady i := .inl ((initializer_of_binding ht hb hi).2 i (.refl i))
        exact hmoves'.effect.types i hsteady (hbelow i · hsteady)
          ((hfinished i hi).guards i (.refl i))
      refine lawful_of_binding hb hp (fun n hn => ?_) (fun a i ha hi => ?_) hgives
      · rcases Option.or_eq_some_iff.mp hn with ha | ⟨-, hi⟩
        · exact (hatype n ha).trans (hsource n hn)
        · exact (hitype n hi).trans (hsource n hn)
      · rw [hatype a ha, hitype i hi]
        exact hcompatible (hmoves'.effect.clean hclean) a i ha hi
    · rw [Tree.children, hb, Kind.children, List.mem_cons, Option.mem_toList] at hc
      rcases hc with rfl | hi
      · have hinert : (e.tree.kind c).isInert = true := by
          simp [hp, Kind.isInert, Kind.isBindingPattern]
        exact .of_hasRule (Kind.hasRule_of_isInert (Tree.isInert_of_below ht hinert hx))
      · refine ((hfinished c hi).later ht hmoves'.effect ?_).lawful hclean x hx
        rintro y ⟨hy, hy'⟩
        exact hbelow y hy' (.inl ((initializer_of_binding ht hb hi).2 y hy))

end Bindings

section Checking

variable {b : NodeId} {ctx : Context} {inBody : Bool} (ht : e.tree.WellFormed)

include ht

theorem binding_spec (hrun : Obeys e.tree run) (hinv : Invariant e.tree opened s)
    (hready : Job.Ready e.tree opened s (.binding b ctx inBody)) :
    Ends (binding e run b ctx inBody) s fun _ s' =>
      Moves e.tree opened nowhere s s' ∧ s'.IsChecked b := by
  obtain ⟨hbinding, hctx, hneed⟩ := hready
  rw [binding]
  refine .get ?_
  split
  · next hchecked => exact .pure ⟨.refl hinv, hchecked⟩
  · next hunchecked =>
      refine .bind (.modify (Q := fun _ s' => s' = _) rfl) ?_
      rintro - s₁ rfl
      obtain ⟨p, initializer, hb⟩ := Kind.exists_of_isBinding hbinding
      have hp := ht.fits b (Kind.isBindingPattern, p) (by simp [hb, Kind.parts])
      obtain ⟨introducer, how, sub, ascription, hp⟩ := Kind.exists_of_isBindingPattern hp
      simp only [hb, hp]
      rw [← bind_assoc]
      refine (unchecked_spec ht hrun hb hp inBody hinv hctx hunchecked hneed).bind ?_
      rintro - s₂ ⟨hmoves, hlawful⟩
      refine .pure ⟨⟨?_, ⟨hmoves.resumes.inProgress, hmoves.resumes.busy⟩,
        hmoves.invariant.closing hlawful⟩, ?_⟩
      · refine ((effect_mark s b).trans hmoves.effect).within fun x _ hguard hx => ?_
        exact hunchecked (hguard b hbinding hx)
      · exact hmoves.effect.checked b ((isChecked_insert s b b).mpr (.inl rfl))

theorem Finished.of_checked (hb : (e.tree.kind b).isBinding = true)
    (hinv : Invariant e.tree opened s) (hchecked : s.IsChecked b) (hclosed : ¬ opened b) :
    Finished e.tree b s where
  guards := fun _ hx => guards_of_below ht hb hchecked hx
  lawful := fun hclean => hinv.done hclean b hb hchecked hclosed

end Checking

end LanguageService.Check
