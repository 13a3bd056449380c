import LanguageService.Proofs.AliasJobs
import LanguageService.Proofs.References

/-!
In an accepted program no alias is used for itself, and each is recorded with the type to which it
comes when all aliases in it are replaced.
-/
namespace LanguageService

namespace Kind

theorem exists_of_isTypeAlias {k : Kind} (hk : k.isTypeAlias = true) :
    ∃ introducer x aliased, k = typeAlias introducer x aliased := by
  cases k <;> first | (cases hk; done) | exact ⟨_, _, _, rfl⟩

theorem hasSignature_of_isMemberwise {k : Kind} (hk : k.isMemberwise = true) :
    k.hasSignature = true := by
  obtain ⟨introducer, ps, synthesized, rfl⟩ := exists_of_isMemberwise hk
  rfl

theorem innerSorts_of_isTypeAlias {k : Kind} (hk : k.isTypeAlias = true) :
    ∀ f ∈ innerSorts, f k = false := by
  obtain ⟨introducer, x, aliased, rfl⟩ := exists_of_isTypeAlias hk
  simp [innerSorts, isGeneric, isType, isParameter, isStmt, isVariant, isMemberwise,
    isBindingPattern, isExpr, isBinding, isPattern, isVar]

end Kind

theorem Tree.innerSorts_of_below {t : Tree} (ht : t.WellFormed) {c n : NodeId} (h : t.Below c n)
    (hn : ∀ f ∈ Kind.innerSorts, f (t.kind n) = false) :
    ∀ f ∈ Kind.innerSorts, f (t.kind c) = false := by
  induction h with
  | refl => exact hn
  | tail _ hn' ih =>
      obtain ⟨f, hf, hkind⟩ := kind_of_child ht hn'
      exact ih (Kind.innerSorts_of_isContainer (Kind.isContainer_of_innerSorts hf hkind hn))

namespace Check

variable {e : Env} {run : Run} {s : State}

theorem Ends.and {α : Type} {m : CheckM α} {Q Q' : α → State → Prop} (h : Ends m s Q)
    (h' : Ends m s Q') : Ends m s fun a s' => Q a s' ∧ Q' a s' :=
  fun a s' hm => ⟨h a s' hm, h' a s' hm⟩

theorem Job.Grounded.shuns_root {t : Tree} (ht : t.WellFormed) {n : NodeId} {ctx : Context}
    (h : Job.Grounded t s (.typeExpr n ctx)) : s.Shuns t (· = n) := by
  rintro d hd htyped m hm rfl
  exact h.shuns ht d hd htyped m hm (.refl m)

theorem Expanding.widen {t : Tree} {region region' : NodeId → Prop} {s' : State}
    (h : Expanding t region s s') (hsub : ∀ n, region n → region' n) : Expanding t region' s s' :=
  ⟨h.spares.within fun _ n _ _ => hsub n, h.expanded⟩

theorem typeDenoted_cases {d : NodeId} {find : CheckM Ty} (h : typeDenoted e run d = some find) :
    (∃ a, e.tree.denoted? d = some a ∧ find = pure a) ∨
      (e.tree.kind d).isTypeAlias = true ∧ find = run (.typeAlias d) := by
  rw [typeDenoted] at h
  split at h <;> cases h
  · next hk => exact .inl ⟨_, by rw [Tree.denoted?, hk], rfl⟩
  · next hk => exact .inl ⟨_, by rw [Tree.denoted?, hk], rfl⟩
  · next hk => exact .inl ⟨_, by rw [Tree.denoted?, hk], rfl⟩
  · next hk => exact .inl ⟨_, by rw [Tree.denoted?, hk], rfl⟩
  · next hk => exact .inr ⟨by rw [hk]; rfl, rfl⟩

/-- A name has been looked up, and with the type that has been found it stands for that. -/
def Construed (t : Tree) (n : NodeId) (s : State) (a : Ty) (s' : State) : Prop :=
  Expanding t (· = n) s s' ∧ (s'.Clean → ∀ d, t.WrittenFor d n →
    (State.program { s' with types := s'.types.insert n a } t).Expands n a)

section Types

variable (ht : e.tree.WellFormed) (hrun : Unfolds e.tree run) {n : NodeId} {ctx : Context}

theorem complain_construed (site : Site) (c : Complaint) (hs : Expanded e.tree s) :
    Ends (complain e site c >>= fun _ => pure Ty.error) s (Construed e.tree n s) :=
  (complain_spec e site c s).bind fun _ _ h => .pure
    ⟨(h.1.expanding hs).anywhere, fun hclean => absurd hclean h.2⟩

theorem refer_construed {x : Name} {r : Reference} {a : Ty} (hn : e.tree.kind n = .nameType x)
    (hself : x.text ≠ "Self") (hs : Expanded e.tree s) (hshuns : s.Shuns e.tree (· = n))
    (htyped : s.Clean → ∀ i, e.tree.WrittenFor i n → ∀ d, r = .direct d →
      (e.tree.kind d).isTypeAlias = true → s.types.get? d ≠ none)
    (hexpands : ∀ i s', e.tree.WrittenFor i n → Spares e.tree (· = n) s s' → s'.Clean →
      s'.references.get? n = some r → (s'.program e.tree).Expands n a) :
    Ends (refer n r >>= fun _ => pure a) s (Construed e.tree n s) := by
  have hreferred := hs.refer hshuns (r := r) fun hclean i hi => ⟨⟨x, hn, hself⟩, htyped hclean i hi⟩
  refine .bind (.modify (Q := fun _ s' => s' = _) rfl) ?_
  rintro - s₁ rfl
  refine .pure ⟨hreferred, fun hclean i hi => ?_⟩
  have halias : (e.tree.kind n).isTypeAlias = false := by rw [hn]; rfl
  exact hexpands i _ hi (hreferred.spares.trans (spares_setType halias)) hclean (by simp)

include ht hrun

theorem alias_construed {x : Name} {d : NodeId} (hn : e.tree.kind n = .nameType x)
    (hself : x.text ≠ "Self") (hs : Expanded e.tree s)
    (hg : Job.Grounded e.tree s (.typeExpr n ctx)) (halias : (e.tree.kind d).isTypeAlias = true) :
    Ends (run (.typeAlias d) >>= fun a => refer n (.direct d) >>= fun _ => pure a) s
      (Construed e.tree n s) := by
  obtain ⟨k, haliased⟩ := Kind.exists_aliased? halias
  refine (hrun (.typeAlias d) s hs trivial).bind ?_
  rintro a s₁ ⟨hmoves, htype⟩
  have hshuns := (hg.later hmoves.spares).shuns_root ht
  have hknown (hclean : s₁.Clean) : s₁.types.get? d ≠ none := by simp [htype hclean halias]
  refine (refer_construed hn hself hmoves.expanded hshuns ?_ ?_).mono
    fun _ _ h => ⟨hmoves.anywhere.trans h.1, h.2⟩
  · rintro hclean i hi _ ⟨⟩ -
    exact hknown hclean
  · intro i s' hi hspares hclean href
    have hclean₁ := hspares.clean hclean
    have hk := hmoves.expanded.expands hclean₁ d k a haliased (htype hclean₁ halias)
    refine .replaced hn href haliased ?_
    exact hspares.expands hmoves.expanded hclean hshuns hk ⟨k, haliased, .refl k⟩
      (.inl (hknown hclean₁)) fun m hm => hshuns d halias (hknown hclean₁) m ⟨k, haliased, hm⟩

theorem typeName_construed {x : Name} (hn : e.tree.kind n = .nameType x) (hs : Expanded e.tree s)
    (hg : Job.Grounded e.tree s (.typeExpr n ctx)) :
    Ends (typeName e run n x ctx) s (Construed e.tree n s) := by
  have hshuns := hg.shuns_root ht
  -- Names of what is declared as a type, and no alias.
  have hdenoted {d : NodeId} {a : Ty} (hself : x.text ≠ "Self")
      (hd : ∀ i, e.tree.WrittenFor i n → e.tree.denoted? d = some a) :
      Ends (refer n (.direct d) >>= fun _ => pure a) s (Construed e.tree n s) := by
    refine refer_construed hn hself hs hshuns ?_ fun i s' hi _ _ href => ?_
    · rintro - i hi _ ⟨⟩ halias
      obtain ⟨k, hk⟩ := Kind.exists_aliased? halias
      simp [Tree.aliased?_of_denoted? (hd i hi)] at hk
    · exact .named hn ((Program.named?_of_direct href).trans (hd i hi))
  rw [typeName]
  split
  · next hself =>
      split
      · next a _ =>
          refine .pure ⟨.refl hs, fun hclean i hi => .named hn ?_⟩
          have hnone : s.references.get? n = none := by
            cases href : s.references.get? n with
            | none => rfl
            | some r =>
                obtain ⟨⟨y, hy, hne⟩, -⟩ := hs.named hclean i n r hi href
                cases hn.symm.trans hy
                exact absurd hself hne
          exact (Program.named?_of_self hself hnone).trans (by simp [State.program])
      · exact complain_construed _ _ hs
  · next hself =>
      dsimp only
      split
      · next g hfind =>
          exact hdenoted hself fun i hi => Tree.denoted?_of_isGeneric
            ((hg.2 i hi).2.2 g (List.mem_of_find?_eq_some hfind))
      · split
        · next b _ =>
            refine refer_construed hn hself hs hshuns ?_ fun i s' hi _ _ href => ?_
            · rintro - i hi d ⟨⟩
            · exact .named hn (Program.named?_of_builtin href)
        · split
          · exact complain_construed _ _ hs
          · next d _ =>
              split
              · exact complain_construed _ _ hs
              · next find hfind =>
                  rcases typeDenoted_cases hfind with ⟨a, ha, rfl⟩ | ⟨halias, rfl⟩
                  · rw [pure_bind]
                    exact hdenoted hself fun _ _ => ha
                  · exact alias_construed ht hrun hn hself hs hg halias

theorem typeExprs_unfolds {ns : List NodeId}
    (hapart : ns.Pairwise fun c c' => ∀ x, ¬ (e.tree.Below c x ∧ e.tree.Below c' x))
    (hs : Expanded e.tree s) (hg : ∀ c ∈ ns, Job.Grounded e.tree s (.typeExpr c ctx)) :
    Ends (ns.mapM fun c => run (.typeExpr c ctx)) s fun as s' =>
      Expanding e.tree (fun x => ∃ c ∈ ns, e.tree.Below c x) s s' ∧ ns.length = as.length ∧
        (s'.Clean → ∀ d, (∀ c ∈ ns, e.tree.WrittenFor d c) → ∀ q ∈ ns.zip as,
          (s'.program e.tree).Expands q.1 q.2) := by
  induction ns generalizing s with
  | nil => exact .pure ⟨.refl hs, rfl, by simp⟩
  | cons c cs ih =>
      rw [List.forall_mem_cons] at hg
      rw [List.pairwise_cons] at hapart
      rw [List.mapM_cons]
      refine (hrun _ s hs hg.1).bind ?_
      rintro a s₁ ⟨hmoves, htype⟩
      have hg₁ : ∀ m ∈ cs, Job.Grounded e.tree s₁ (.typeExpr m ctx) :=
        fun m hm => (hg.2 m hm).later hmoves.spares
      refine (ih hapart.2 hmoves.expanded hg₁).bind ?_
      rintro as s₂ ⟨hmoves', hlength, htypes⟩
      refine .pure ⟨.trans (hmoves.widen fun x hx => ⟨c, by simp, hx⟩)
        (hmoves'.widen fun x ⟨m, hm, hx⟩ => ⟨m, by simp [hm], hx⟩), by simp [hlength], ?_⟩
      intro hclean d hwritten
      rw [List.forall_mem_cons] at hwritten
      rw [List.zip_cons_cons, List.forall_mem_cons]
      refine ⟨?_, htypes hclean d hwritten.2⟩
      -- What is worked out later stands elsewhere.
      refine hmoves'.spares.expands hmoves.expanded hclean ?_
        (htype (hmoves'.spares.clean hclean) d hwritten.1) hwritten.1 (.inr ?_) ?_
      · rintro i hi htyped m hm ⟨b, hb, hbelow⟩
        exact (hg₁ b hb).shuns ht i hi htyped m hm hbelow
      · exact ((hg.1.later hmoves.spares).2 d hwritten.1).1
      · rintro m hm ⟨b, hb, hbelow⟩
        exact hapart.1 b hb m ⟨hm, hbelow⟩

theorem typeExpr_unfolds (hs : Expanded e.tree s)
    (hg : Job.Grounded e.tree s (.typeExpr n ctx)) :
    Ends (typeExpr e run n ctx) s fun a s' => Expanding e.tree (e.tree.Below n) s s' ∧
      (s'.Clean → ∀ d, e.tree.WrittenFor d n → (s'.program e.tree).Expands n a) := by
  have halias := Kind.isTypeAlias_of_isType hg.1
  rw [typeExpr]
  cases hk : e.tree.kind n with
  | nameType x =>
      refine (typeName_construed ht hrun hk hs hg).bind ?_
      rintro a s₁ ⟨hmoves, hexpands⟩
      refine .bind (.modify (Q := fun _ s' => s' = _) rfl) ?_
      rintro - s₂ rfl
      have hset := hmoves.expanded.setType a halias ((hg.later hmoves.spares).shuns_root ht)
      exact .pure ⟨(hmoves.trans hset).widen fun m hm => hm ▸ .refl m, hexpands⟩
  | tupleType es =>
      have hpart {c : NodeId} (hc : c ∈ es) : (Kind.isType, c) ∈ (e.tree.kind n).parts := by
        simp [hk, Kind.parts, hc]
      have hbelow {c x : NodeId} (hc : c ∈ es) (hx : e.tree.Below c x) : e.tree.Below n x :=
        .of_child (Tree.child_of_part (hpart hc)) hx
      have hapart : es.Pairwise fun c c' => ∀ x, ¬ (e.tree.Below c x ∧ e.tree.Below c' x) := by
        have hchildren := Tree.children_pairwise ht n
        rwa [Tree.children, hk] at hchildren
      have hg' : ∀ c ∈ es, Job.Grounded e.tree s (.typeExpr c ctx) := fun c hc =>
        ⟨ht.fits n _ (hpart hc), fun d hd => hg.2 d (hd.of_below ht hg.1 (hbelow hc (.refl c)))⟩
      refine (typeExprs_unfolds ht hrun hapart hs hg').bind ?_
      rintro as s₁ ⟨hmoves, hlength, hexpands⟩
      rw [pure_bind]
      refine .bind (.modify (Q := fun _ s' => s' = _) rfl) ?_
      rintro - s₂ rfl
      have hwithin (x : NodeId) (hx : ∃ c ∈ es, e.tree.Below c x) : e.tree.Below n x := by
        obtain ⟨c, hc, hx⟩ := hx
        exact hbelow hc hx
      have hmoves := hmoves.widen hwithin
      have hlater := hg.later hmoves.spares
      have hshuns := hlater.shuns_root ht
      have hset := hmoves.expanded.setType (.ofElements as) halias hshuns
      refine .pure ⟨hmoves.trans (hset.widen fun m hm => hm ▸ .refl m), fun hclean d hd => ?_⟩
      refine .tuple hk hlength fun q hq => ?_
      have hq' := (List.of_mem_zip hq).1
      have hwritten (c : NodeId) (hc : c ∈ es) : e.tree.WrittenFor d c :=
        hd.below (hbelow hc (.refl c))
      refine hset.spares.expands hmoves.expanded hclean hshuns (hexpands hclean d hwritten q hq)
        (hwritten q.1 hq') (.inr (hlater.2 d hd).1) ?_
      rintro m hm rfl
      exact absurd (ht.child_lt m q.1 (Tree.child_of_part (hpart hq'))) (Nat.not_lt.mpr (hm.le ht))
  | _ => exact absurd hg.1 (by simp [hk, Kind.isType])

end Types

section Aliases

variable {t : Tree} {d k : NodeId} {a : Ty}

theorem Expanded.setAlias (ht : t.WellFormed) (hs : Expanded t s)
    (hd : (t.kind d).aliased? = some k) (hnew : s.types.get? d = none)
    (hidle : s.inProgress.get? d = none) (hk : s.Clean → (s.program t).Expands k a) :
    Expanding t nowhere s { s with types := s.types.insert d a } := by
  have hspares : Spares t nowhere s { s with types := s.types.insert d a } := by
    refine ⟨id, fun _ => rfl, fun i ty _ hty => ?_, fun i _ hbusy => ?_, fun _ i n hn _ _ => ?_,
      fun _ _ _ _ _ _ => rfl⟩
    · rw [Table.get?_insert, if_neg]
      · exact hty
      · rintro rfl
        simp [hnew] at hty
    · rw [Table.get?_insert, if_neg]
      rintro rfl
      exact hbusy hidle
    · rw [Table.get?_insert, if_neg]
      rintro rfl
      have halias := Kind.isType_of_isTypeAlias (Kind.isTypeAlias_of_aliased? hd)
      simp [hn.isType ht] at halias
  refine ⟨hspares, hs.later hspares hs.frames shuns_nowhere (fun _ _ _ _ _ hr => .inl hr) ?_⟩
  intro hclean i k' ty hi hnone hty
  rw [Table.get?_insert] at hty
  split at hty
  · next heq =>
      cases hty
      subst heq
      cases hd.symm.trans hi
      have hne {n : NodeId} (hn : (t.kind n).isType = true) : d ≠ n := by
        rintro rfl
        simp [Kind.isType_of_isTypeAlias (Kind.isTypeAlias_of_aliased? hd)] at hn
      refine (hk hclean).agree rfl (R := fun n => (t.kind n).isType = true) (fun n hn => ⟨rfl, ?_⟩)
        (fun n c hn hc => Tree.isType_of_below ht hn (Tree.below_child hc)) ?_
        (ht.fits d _ (Kind.part_of_aliased? hd))
      · exact (Table.get?_insert _ _ _ _).trans (if_neg (hne hn))
      · exact fun n i k' x _ _ _ hi => ht.fits i _ (Kind.part_of_aliased? hi)
  · simp [hnone] at hty

end Aliases

section Jobs

variable (ht : e.tree.WellFormed) (hrun : Unfolds e.tree run)

include ht hrun

theorem aliased_unfolds {d k : NodeId} (hd : (e.tree.kind d).aliased? = some k)
    (hnew : s.types.get? d = none) (hidle : s.inProgress.get? d = none) (hs : Expanded e.tree s) :
    Ends (contextOf e run d >>= fun ctx => run (.typeExpr k ctx))
      { s with inProgress := s.inProgress.insert d () } fun a s' =>
        Expanding e.tree nowhere s { s' with inProgress := s'.inProgress.erase d } ∧
          s'.types.get? d = none ∧ (s'.Clean → (s'.program e.tree).Expands k a) := by
  refine ((contextOf_harmless ht hrun d _ (hs.start d)).and (contextOf_from ht d)).bind ?_
  rintro ctx s₁ ⟨hmoves, hctx⟩
  have hwritten : e.tree.WrittenFor d k := ⟨k, hd, .refl k⟩
  have hg : Job.Grounded e.tree s₁ (.typeExpr k ctx) := by
    refine ⟨hwritten.isType ht, fun i hi => ?_⟩
    obtain rfl := hi.unique ht hwritten
    refine ⟨?_, ?_, hctx.generics⟩
    · simp [hmoves.spares.inProgress]
    · rw [hmoves.spares.busy i hi.isTypeAlias (by simp)]
      exact hnew
  refine (hrun _ s₁ hmoves.expanded hg).mono ?_
  rintro a s₂ ⟨hmoves', hexpands⟩
  have hall := (hmoves.anywhere.trans hmoves').started hidle
  refine ⟨⟨hall.spares.within ?_, hall.expanded⟩, ?_, fun hclean => hexpands hclean d hwritten⟩
  · -- What is written for the alias is written for no other, and this one was not held.
    rintro i n hn hheld hbelow
    obtain rfl := hn.unique ht (hwritten.below hbelow)
    rcases hheld with htyped | hbusy
    · exact absurd hnew htyped
    · exact absurd hidle hbusy
  · rw [hmoves'.spares.busy d hwritten.isTypeAlias (hg.2 d hwritten).1]
    exact (hg.2 d hwritten).2.1

theorem typeAlias_unfolds {d : NodeId} (hs : Expanded e.tree s) :
    Ends (typeAlias e run d) s fun a s' => Expanding e.tree nowhere s s' ∧
      (s'.Clean → (e.tree.kind d).isTypeAlias = true → s'.types.get? d = some a) := by
  rw [typeAlias]
  refine .typeOf ?_
  split
  · next hknown => exact .pure ⟨.refl hs, fun _ _ => hknown⟩
  · next hnew =>
      split
      · next introducer x k hk =>
          have hd : (e.tree.kind d).aliased? = some k := by rw [hk]; rfl
          refine (start_spec d s).bind ?_
          rintro fresh s₁ ⟨hfresh, hbusy⟩
          split
          · next hstart =>
              obtain ⟨hidle, rfl⟩ := hfresh hstart
              rw [← bind_assoc]
              refine (aliased_unfolds ht hrun hd hnew hidle hs).bind ?_
              rintro a s₂ ⟨hmoves, hunknown, hexpands⟩
              refine .bind (.modify (Q := fun _ s' => s' = _) rfl) ?_
              rintro - s₃ rfl
              refine .bind (.modify (Q := fun _ s' => s' = _) rfl) ?_
              rintro - s₄ rfl
              have hset := hmoves.expanded.setAlias ht hd hunknown (by simp) hexpands
              exact .pure ⟨hmoves.trans hset, fun _ _ => by simp⟩
          · next hstart =>
              obtain ⟨-, rfl⟩ := hbusy (by simpa using hstart)
              refine (complain_spec e _ _ _).bind fun _ s₂ h => .pure ⟨h.1.expanding hs, ?_⟩
              exact fun hclean => absurd hclean h.2
      · next hk =>
          refine .pure ⟨.refl hs, fun _ halias => ?_⟩
          obtain ⟨i, x, k, hd⟩ := Kind.exists_of_isTypeAlias halias
          exact absurd hd (hk i x k)

omit ht in
theorem members_unfolds {ms : List NodeId} (hs : Expanded e.tree s) :
    Ends (each run (ms.map .decl)) s fun _ s' => Expanding e.tree nowhere s s' ∧
      ∀ m ∈ ms, s'.Settled e.tree m := by
  induction ms generalizing s with
  | nil => exact .pure ⟨.refl hs, by simp⟩
  | cons m ms ih =>
      rw [List.map_cons, each_cons]
      refine Ends.bind (R := fun _ s₁ => Expanding e.tree nowhere s s₁ ∧ s₁.Settled e.tree m)
        ?_ fun _ s₁ h => ?_
      · rw [each_eq_mapM]
        simpa using (hrun (.decl m) s hs trivial).bind fun a s₁ h => .pure h
      · refine (ih h.1.expanded).mono fun _ s₂ h' => ⟨h.1.trans h'.1, ?_⟩
        exact List.forall_mem_cons.mpr ⟨h.2.later h'.1.spares, h'.2⟩

omit ht hrun in
theorem parameterFrame_hasSignature {ps : List NodeId}
    (hps : ∀ p ∈ ps, (e.tree.kind p).isParameter = true) :
    ∀ f ∈ [parameterFrame e ps], ∀ q ∈ f, (e.tree.kind q.2).hasSignature = true := by
  simp only [List.mem_singleton, forall_eq]
  exact fun q hq => Kind.hasSignature_of_isParameter (hps q.2 (mem_parameterFrame hq).1)

theorem bodies_harmless {d : NodeId} {ps bs : List NodeId} (output : Ty)
    (hps : ∀ p ∈ ps, (e.tree.kind p).isParameter = true) :
    Harmless e.tree (bodies e run d ps output bs) := by
  induction bs with
  | nil => exact .pure ()
  | cons b bs ih =>
      refine .bind (.bind (contextOf_harmless ht hrun d) fun ctx => .bind ?_ fun _ => .pure _)
        fun _ => ih
      exact withFrames_harmless (parameterFrame_hasSignature hps)
        (hrun.harmless ht (j := .stmt b _) trivial)

theorem conformances_harmless {d : NodeId} {ns : List NodeId} {ctx : Context}
    (hns : ∀ n ∈ ns, (Kind.isType, n) ∈ (e.tree.kind d).parts)
    (hd : (e.tree.kind d).isType = false) (halias : (e.tree.kind d).isTypeAlias = false) :
    Harmless e.tree (conformances e run ctx ns) := by
  induction ns with
  | nil => exact .pure ()
  | cons n ns ih =>
      rw [List.forall_mem_cons] at hns
      rw [conformances]
      refine .bind (typePart_harmless ht hrun hns.1 hd halias) fun ty => ?_
      split
      · exact ih hns.2
      · exact ih hns.2
      · exact .bind (complain_harmless _ _) fun _ => ih hns.2

omit hrun in
theorem State.Settled.of_members {d : NodeId} (ms : List NodeId)
    (hparts : ∀ p ∈ (e.tree.kind d).parts, p.2 ∈ ms ∨ p.1 ∈ Kind.innerSorts)
    (hd : (e.tree.kind d).isTypeAlias = false ∨ s.types.get? d ≠ none)
    (hms : ∀ m ∈ ms, (e.tree.kind m).isMember = true ∧ s.Settled e.tree m) :
    s.Settled e.tree d := by
  intro hclean _ i hi halias
  rcases Tree.below_iff.mp hi with rfl | ⟨c, hc, hbelow⟩
  · exact hd.resolve_left (by simp [halias])
  · have hinner := Tree.innerSorts_of_below ht hbelow (Kind.innerSorts_of_isTypeAlias halias)
    obtain ⟨f, hf, hkind⟩ := Tree.kind_of_child ht hc
    rcases hparts _ hf with hm | hsort
    · obtain ⟨hmember, hsettled⟩ := hms c hm
      exact hsettled hclean hmember i hbelow halias
    · exact absurd ((hinner f hsort).symm.trans hkind) Bool.false_ne_true

section Decls

variable {d : NodeId} {s₁ : State}

omit hrun in
theorem settled_of_harmless {m : CheckM Unit} (hm : Harmless e.tree m)
    (hmoves : Expanding e.tree nowhere s s₁)
    (hparts : ∀ p ∈ (e.tree.kind d).parts, p.1 ∈ Kind.innerSorts)
    (hd : (e.tree.kind d).isTypeAlias = false) :
    Ends m s₁ fun _ s' => Expanding e.tree nowhere s s' ∧ s'.Settled e.tree d :=
  (hm s₁ hmoves.expanded).mono fun _ s' h => ⟨hmoves.trans h,
    .of_members ht [] (fun p hp => .inr (hparts p hp)) (.inl hd) (by simp)⟩

theorem declared_members_unfolds {ms : List NodeId} (hmoves : Expanding e.tree nowhere s s₁)
    (hparts : ∀ p ∈ (e.tree.kind d).parts, p.2 ∈ ms ∨ p.1 ∈ Kind.innerSorts)
    (hms : ∀ m ∈ ms, (Kind.isMember, m) ∈ (e.tree.kind d).parts)
    (hd : (e.tree.kind d).isTypeAlias = false) :
    Ends (each run (ms.map .decl)) s₁ fun _ s' =>
      Expanding e.tree nowhere s s' ∧ s'.Settled e.tree d := by
  refine (members_unfolds hrun hmoves.expanded).mono fun _ s₂ h => ⟨hmoves.trans h.1, ?_⟩
  exact .of_members ht ms hparts (.inl hd) fun m hm => ⟨ht.fits d _ (hms m hm), h.2 m hm⟩

theorem function_unfolds {ps bs : List NodeId} (output : Ty → Ty) (hs : Expanded e.tree s)
    (hps : ∀ p ∈ ps, (Kind.isParameter, p) ∈ (e.tree.kind d).parts)
    (hparts : ∀ p ∈ (e.tree.kind d).parts, p.1 ∈ Kind.innerSorts)
    (hd : (e.tree.kind d).hasSignature = true) :
    Ends (run (.signature d) >>= fun ty => bodies e run d ps (output ty) bs) s fun _ s' =>
      Expanding e.tree nowhere s s' ∧ s'.Settled e.tree d := by
  refine settled_of_harmless ht ?_ (.refl hs) hparts (Kind.isTypeAlias_of_hasSignature hd)
  exact .bind (hrun.harmless ht (j := .signature d) hd) fun _ =>
    bodies_harmless ht hrun _ fun p hp => ht.fits d _ (hps p hp)

theorem product_unfolds {introducer : Site} {x : Name} {gs ms : List NodeId}
    {memberwise : Option NodeId} (hs : Expanded e.tree s)
    (hk : e.tree.kind d = .product introducer x gs ms memberwise) :
    Ends (each run (ms.map .decl ++ memberwise.toList.map .signature)) s fun _ s' =>
      Expanding e.tree nowhere s s' ∧ s'.Settled e.tree d := by
  have hsignatures : Harmless e.tree (each run (memberwise.toList.map .signature)) := by
    refine each_harmless fun j hj => ?_
    obtain ⟨m, hm, rfl⟩ := List.mem_map.mp hj
    refine hrun.harmless ht (j := .signature m) (Kind.hasSignature_of_isMemberwise ?_)
    exact ht.fits d (Kind.isMemberwise, m)
      (by simpa [hk, Kind.parts] using .inr (.inr (Option.mem_toList.mp hm)))
  rw [each_append]
  refine (declared_members_unfolds ht hrun (d := d) (.refl hs) ?_ ?_ (by rw [hk]; rfl)).bind
    fun _ s₁ h => ?_
  · simp +contextual [hk, Kind.parts, Kind.innerSorts, or_imp, forall_and]
  · simp +contextual [hk, Kind.parts]
  · exact (hsignatures s₁ h.1.expanded).mono fun _ s₂ h' => ⟨h.1.trans h', h.2.later h'.spares⟩

theorem subject_each_harmless : Harmless e.tree (each run [.subject d]) :=
  each_harmless fun j hj => by
    rw [List.mem_singleton.mp hj]
    exact hrun.harmless ht (j := .subject d) trivial

theorem conformance_unfolds {introducer : Site} {n : NodeId} {ts ms : List NodeId}
    (hs : Expanded e.tree s) (hk : e.tree.kind d = .conformance introducer n ts ms) :
    Ends (do
      each run [.subject d]
      let ctx ← contextOf e run d
      conformances e run ctx ts
      each run (ms.map .decl)) s fun _ s' =>
        Expanding e.tree nowhere s s' ∧ s'.Settled e.tree d := by
  refine (subject_each_harmless ht hrun s hs).bind fun _ s₁ hmoves₁ => ?_
  refine (contextOf_harmless ht hrun d s₁ hmoves₁.expanded).bind fun ctx s₂ hmoves₂ => ?_
  refine (conformances_harmless ht hrun (d := d) ?_ (by rw [hk]; rfl) (by rw [hk]; rfl) s₂
    hmoves₂.expanded).bind fun _ s₃ hmoves₃ => ?_
  · simp +contextual [hk, Kind.parts]
  · refine declared_members_unfolds ht hrun ((hmoves₁.trans hmoves₂).trans hmoves₃) ?_
      (by simp +contextual [hk, Kind.parts]) (by rw [hk]; rfl)
    simp +contextual [hk, Kind.parts, Kind.innerSorts, or_imp, forall_and]

theorem declared_alias_unfolds {introducer : Site} {x : Name} {k : NodeId}
    (hs : Expanded e.tree s) (hk : e.tree.kind d = .typeAlias introducer x k) :
    Ends (each run [.typeAlias d]) s fun _ s' =>
      Expanding e.tree nowhere s s' ∧ s'.Settled e.tree d := by
  have halias : (e.tree.kind d).isTypeAlias = true := by rw [hk]; rfl
  rw [each_eq_mapM]
  refine Ends.bind (R := fun _ s' => Expanding e.tree nowhere s s' ∧
    (s'.Clean → s'.types.get? d ≠ none)) ?_ fun _ s' h => .pure ⟨h.1, fun hclean => ?_⟩
  · simpa using (hrun (.typeAlias d) s hs trivial).bind fun a s' h =>
      .pure ⟨h.1, fun hclean => by simp [h.2 hclean halias]⟩
  · exact State.Settled.of_members ht [] (by simp [hk, Kind.parts, Kind.innerSorts])
      (.inr (h.2 hclean)) (by simp) hclean

theorem decl_unfolds (hs : Expanded e.tree s) :
    Ends (decl e run d) s fun _ s' => Expanding e.tree nowhere s s' ∧ s'.Settled e.tree d := by
  rw [decl]
  cases hk : e.tree.kind d with
  | space i x ms =>
      exact declared_members_unfolds ht hrun (.refl hs) (by simp +contextual [hk, Kind.parts])
        (by simp [hk, Kind.parts]) (by rw [hk]; rfl)
  | product i x gs ms memberwise => exact product_unfolds ht hrun hs hk
  | extension i n ms =>
      dsimp only
      rw [each_cons]
      refine (subject_each_harmless ht hrun s hs).bind fun _ s₁ hmoves => ?_
      exact declared_members_unfolds ht hrun hmoves
        (by simp +contextual [hk, Kind.parts, Kind.innerSorts])
        (by simp +contextual [hk, Kind.parts])
        (by rw [hk]; rfl)
  | conformance i n ts ms => exact conformance_unfolds ht hrun hs hk
  | trait i x ms =>
      exact declared_members_unfolds ht hrun (.refl hs) (by simp +contextual [hk, Kind.parts])
        (by simp [hk, Kind.parts]) (by rw [hk]; rfl)
  | typeAlias i x k => exact declared_alias_unfolds ht hrun hs hk
  | function i x gs ps o b =>
      exact function_unfolds ht hrun Ty.output hs (by simp +contextual [hk, Kind.parts])
        (by simp +contextual [hk, Kind.parts, Kind.innerSorts, or_imp, forall_and])
        (by rw [hk]; rfl)
  | method i x gs ps o vs =>
      exact function_unfolds ht hrun Ty.output hs (by simp +contextual [hk, Kind.parts])
        (by simp +contextual [hk, Kind.parts, Kind.innerSorts, or_imp, forall_and])
        (by rw [hk]; rfl)
  | init i ps b memberwise =>
      exact function_unfolds ht hrun (fun _ => .void) hs (by simp +contextual [hk, Kind.parts])
        (by simp +contextual [hk, Kind.parts, Kind.innerSorts, or_imp, forall_and])
        (by rw [hk]; rfl)
  | subscript i x ps o b =>
      exact function_unfolds ht hrun Ty.output hs (by simp +contextual [hk, Kind.parts])
        (by simp +contextual [hk, Kind.parts, Kind.innerSorts, or_imp, forall_and])
        (by rw [hk]; rfl)
  | binding p initializer =>
      refine settled_of_harmless ht (.bind (contextOf_harmless ht hrun d) fun ctx =>
        each_harmless fun j hj => ?_) (.refl hs)
          (by simp +contextual [hk, Kind.parts, Kind.innerSorts]) (by rw [hk]; rfl)
      rw [List.mem_singleton.mp hj]
      exact hrun.harmless ht (j := .binding d ctx false) trivial
  | associated i x =>
      exact settled_of_harmless ht (.pure ()) (.refl hs) (by simp [hk, Kind.parts])
        (by rw [hk]; rfl)
  | operator i x s q =>
      exact settled_of_harmless ht (.pure ()) (.refl hs) (by simp [hk, Kind.parts])
        (by rw [hk]; rfl)
  | _ => exact .pure ⟨.refl hs, fun _ hmember => by simp [hk, Kind.isMember] at hmember⟩

end Decls

theorem step_unfolds (hds : e.decls.Sane e.tree) (hletters : e.tree.Lettered) :
    Unfolds e.tree (step e run) := by
  intro j s hs hg
  have hharmless {α : Type} {m : CheckM α} {f : α → Ty} (hm : Harmless e.tree m) :
      Ends (m >>= fun a => pure (f a)) s fun _ s' => Expanding e.tree nowhere s s' :=
    ((hm.bind fun a => .pure (f a)) s hs)
  cases j with
  | decl d => exact (decl_unfolds ht hrun hs).bind fun _ _ h => .pure h
  | signature d => exact (signature_harmless ht hrun hds hg s hs).mono fun _ _ h => ⟨h, trivial⟩
  | typeAlias d => exact typeAlias_unfolds ht hrun hs
  | subject ext => exact (subject_harmless ht hrun ext s hs).mono fun _ _ h => ⟨h, trivial⟩
  | typeExpr n ctx => exact typeExpr_unfolds ht hrun hs hg
  | binding b ctx inBody =>
      exact (hharmless (binding_harmless ht hrun b inBody)).mono fun _ _ h => ⟨h, trivial⟩
  | pattern p ty inBody =>
      exact (hharmless (pattern_harmless ht hrun p ty inBody)).mono fun _ _ h => ⟨h, trivial⟩
  | stmt n ctx =>
      exact (hharmless (stmt_harmless ht hrun n)).mono fun _ _ h => ⟨h, trivial⟩
  | expr n ctx =>
      exact (expr_harmless ht hrun hds hletters hg s hs).mono fun _ _ h => ⟨h, trivial⟩

end Jobs

theorem perform_unfolds (ht : e.tree.WellFormed) (hds : e.decls.Sane e.tree)
    (hletters : e.tree.Lettered) (fuel : Nat) : Unfolds e.tree (perform e fuel) := by
  induction fuel with
  | zero =>
      intro j s _ _ a s' h
      cases h
  | succ fuel ih => exact step_unfolds ht ih hds hletters

theorem expanded_initial (t : Tree) (ds : DiagnosticSet) : Expanded t (.initial ds) where
  frames := by simp [State.initial]
  named := by simp [State.initial]
  expands := by simp [State.initial]

variable {t : Tree}

theorem final_expanded (h : t.Parsed) {fuel : Nat} (hfinal : final t fuel = some s) :
    Expanded t s ∧ ∀ d ∈ ownDecls t, s.Settled t d := by
  obtain ⟨⟨v, s'⟩, hrun, rfl⟩ := Option.map_eq_some_iff.mp hfinal
  rw [checkDecls_eq_each] at hrun
  have hunfolds : Unfolds t (perform ⟨t, .ofTree t⟩ fuel) :=
    perform_unfolds (e := ⟨t, .ofTree t⟩) h.wellFormed (Declarations.sane_ofTree h.wellFormed)
      h.lettered fuel
  obtain ⟨hmoves, hsettled⟩ := members_unfolds (e := ⟨t, .ofTree t⟩) hunfolds
    (expanded_initial t _) v s' hrun
  exact ⟨hmoves.expanded, hsettled⟩

/-- In an accepted program no alias that is not inherited is used for itself, be it through others,
and its type is the one to which it comes when all aliases in it are replaced. -/
theorem aliases_expand (h : t.Parsed) {p : Program} (hcheck : typeCheck t = .ok p)
    {u a k : NodeId} (hu : u ∈ t.units) (hown : t.isInherited u = false) (ha : t.Below u a)
    (hk : (t.kind a).aliased? = some k) :
    p.tree = t ∧ ¬ Relation.TransGen p.Uses a a ∧
      ∃ ty, p.types.get? a = some ty ∧ ∀ ty', p.Expands k ty' ↔ ty' = ty := by
  obtain ⟨s, hfinal, -, -⟩ := final_lexical h
  obtain ⟨hclean, rfl⟩ := eq_program_of_typeCheck hfinal hcheck
  obtain ⟨hexpanded, hsettled⟩ := final_expanded h hfinal
  have ht := h.wellFormed
  have halias := Kind.isTypeAlias_of_aliased? hk
  have hne : a ≠ u := by
    rintro rfl
    obtain ⟨ds, hunit⟩ := Kind.exists_of_isUnit (Tree.isUnit_of_mem_units ht hu)
    simp [hunit, Kind.isTypeAlias] at halias
  obtain ⟨d, hd, hbelow⟩ := exists_ownDecl ht hu hown ha hne
  have htyped := hsettled d hd hclean (isMember_of_mem_ownDecls ht hd) a hbelow halias
  obtain ⟨ty, hty⟩ := Option.ne_none_iff_exists'.mp htyped
  have hexpands := hexpanded.expands hclean a k ty hk hty
  refine ⟨rfl, hexpands.not_cyclic hk, ty, hty, fun ty' => ⟨fun h' => h'.unique hexpands, ?_⟩⟩
  rintro rfl
  exact hexpands

/-- A document with an alias of aliases that are declared later, in a type that it calls `Self`. -/
def entryDocument : File :=
  .document "file:///main.orca" "
    type Cell \x7b typealias Entry = (Word, (Self, Word)) \x7d
    typealias Word = Pair
    typealias Pair = (Int, String)"

set_option maxRecDepth 4000 in
theorem entryDocument_expands : ∃ t p u a k ty,
    Tree.parseModule .empty "main" [entryDocument] = .ok t ∧ typeCheck t = .ok p ∧ u ∈ t.units ∧
      t.isInherited u = false ∧ t.Below u a ∧ (t.kind a).aliased? = some k ∧
      ¬ Relation.TransGen p.Uses a a ∧ p.types.get? a = some ty ∧ p.Expands k ty ∧
      ty.describe t = "((Int, String), (Cell, (Int, String)))" := by
  have hrun : (Tree.parseModule .empty "main" [entryDocument]).toOption.any (fun t =>
      (typeCheck t).toOption.any fun p => t.units.any fun u => !t.isInherited u &&
        (t.children u).any fun c => (t.children c).any fun a => (t.kind a).isTypeAlias &&
          (p.types.get? a).any fun ty =>
            ty.describe t = "((Int, String), (Cell, (Int, String)))") = true := by
    rw [Tree.parseModule, Tree.parseUnits, Tree.parseUnit, Layout.ofFile_of_text entryDocument rfl]
    decide +kernel
  obtain ⟨t, hparse, hrun⟩ := exists_ok_of_any hrun
  obtain ⟨p, hcheck, hrun⟩ := exists_ok_of_any hrun
  simp only [List.any_eq_true, Bool.and_eq_true, Bool.not_eq_true', Option.any_eq_true,
    decide_eq_true_eq] at hrun
  obtain ⟨u, hu, hown, c, hc, a, ha, halias, ty, hty, hshown⟩ := hrun
  obtain ⟨k, hk⟩ := Kind.exists_aliased? halias
  have hbelow : t.Below u a := .of_child hc (Tree.below_child ha)
  obtain ⟨-, hacyclic, ty', hty', hexpands⟩ :=
    aliases_expand (.module .empty hparse) hcheck hu hown hbelow hk
  cases hty.symm.trans hty'
  exact ⟨t, p, u, a, k, ty, hparse, hcheck, hu, hown, hbelow, hk, hacyclic, hty,
    (hexpands ty).mpr rfl, hshown⟩

end Check

end LanguageService
