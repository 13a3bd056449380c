import LanguageService.Proofs.Aliases
import LanguageService.Proofs.Operators

/-!
While one alias is worked out, what is written for the others is left alone once they have been
worked out or entered. So no alias gets a type but that to which it comes when all aliases in it
have been replaced.
-/
namespace LanguageService.Check

def State.Holds (s : State) (d : NodeId) : Prop :=
  s.types.get? d ≠ none ∨ s.inProgress.get? d ≠ none

/-- What is written for aliases that are held has been left alone outside of `region`, unless
something has been complained about. -/
structure Spares (t : Tree) (region : NodeId → Prop) (s s' : State) : Prop where
  clean : s'.Clean → s.Clean
  inProgress : ∀ d, s'.inProgress.get? d = s.inProgress.get? d
  aliases : ∀ d ty, (t.kind d).isTypeAlias = true → s.types.get? d = some ty →
    s'.types.get? d = some ty
  busy : ∀ d, (t.kind d).isTypeAlias = true → s.inProgress.get? d ≠ none →
    s'.types.get? d = s.types.get? d
  types : s'.Clean → ∀ d n, t.WrittenFor d n → s.Holds d → ¬ region n →
    s'.types.get? n = s.types.get? n
  references : s'.Clean → ∀ d n, t.WrittenFor d n → s.Holds d → ¬ region n →
    s'.references.get? n = s.references.get? n

structure Expanded (t : Tree) (s : State) : Prop where
  frames : ∀ f ∈ s.frames, ∀ q ∈ f, (t.kind q.2).hasSignature = true
  named : s.Clean → ∀ i n r, t.WrittenFor i n → s.references.get? n = some r →
    (∃ x, t.kind n = .nameType x ∧ x.text ≠ "Self") ∧
      ∀ d, r = .direct d → (t.kind d).isTypeAlias = true → s.types.get? d ≠ none
  expands : s.Clean → ∀ d k ty, (t.kind d).aliased? = some k → s.types.get? d = some ty →
    (s.program t).Expands k ty

def State.Shuns (s : State) (t : Tree) (region : NodeId → Prop) : Prop :=
  ∀ d, (t.kind d).isTypeAlias = true → s.types.get? d ≠ none → ∀ m, t.WrittenFor d m → ¬ region m

section States

variable {t : Tree} {region region' : NodeId → Prop} {s s₁ s' : State}

theorem Spares.refl (s : State) : Spares t region s s :=
  ⟨id, fun _ => rfl, fun _ _ _ h => h, fun _ _ _ => rfl, fun _ _ _ _ _ _ => rfl,
    fun _ _ _ _ _ _ => rfl⟩

theorem Spares.holds (h : Spares t region s s') {d : NodeId} (hd : (t.kind d).isTypeAlias = true)
    (hheld : s.Holds d) : s'.Holds d := by
  rcases hheld with htyped | hbusy
  · obtain ⟨ty, hty⟩ := Option.ne_none_iff_exists'.mp htyped
    exact .inl (by simp [h.aliases d ty hd hty])
  · exact .inr (by rwa [h.inProgress])

theorem Spares.trans (h : Spares t region s s₁) (h' : Spares t region s₁ s') :
    Spares t region s s' where
  clean := h.clean ∘ h'.clean
  inProgress := fun d => (h'.inProgress d).trans (h.inProgress d)
  aliases := fun d ty hd hty => h'.aliases d ty hd (h.aliases d ty hd hty)
  busy := fun d hd hbusy => by
    rw [h'.busy d hd (by rwa [h.inProgress]), h.busy d hd hbusy]
  types := fun hclean d n hn hheld hout => by
    rw [h'.types hclean d n hn (h.holds hn.isTypeAlias hheld) hout,
      h.types (h'.clean hclean) d n hn hheld hout]
  references := fun hclean d n hn hheld hout => by
    rw [h'.references hclean d n hn (h.holds hn.isTypeAlias hheld) hout,
      h.references (h'.clean hclean) d n hn hheld hout]

theorem Spares.within (h : Spares t region s s')
    (hsub : ∀ d n, t.WrittenFor d n → s.Holds d → region n → region' n) :
    Spares t region' s s' where
  clean := h.clean
  inProgress := h.inProgress
  aliases := h.aliases
  busy := h.busy
  types := fun hclean d n hn hheld hout =>
    h.types hclean d n hn hheld fun hin => hout (hsub d n hn hheld hin)
  references := fun hclean d n hn hheld hout =>
    h.references hclean d n hn hheld fun hin => hout (hsub d n hn hheld hin)

theorem Spares.expands (h : Spares t region s s') (hs : Expanded t s) (hclean : s'.Clean)
    (hshuns : s.Shuns t region) {n d : NodeId} {ty : Ty} (hn : (s.program t).Expands n ty)
    (hwritten : t.WrittenFor d n) (hheld : s.Holds d) (hout : ∀ m, t.Below n m → ¬ region m) :
    (s'.program t).Expands n ty := by
  refine hn.agree rfl (R := fun n => ∃ d, t.WrittenFor d n ∧ s.Holds d ∧
    ∀ m, t.Below n m → ¬ region m) ?_ ?_ ?_ ⟨d, hwritten, hheld, hout⟩
  · rintro n ⟨d, hd, hheld, hout⟩
    exact ⟨h.references hclean d n hd hheld (hout n (.refl n)),
      h.types hclean d n hd hheld (hout n (.refl n))⟩
  · rintro n c ⟨d, hd, hheld, hout⟩ hc
    have hbelow := Tree.below_child hc
    exact ⟨d, hd.below hbelow, hheld, fun m hm => hout m (hbelow.trans hm)⟩
  · rintro n d' k x ⟨d, hd, -, -⟩ hx href hk
    have halias := Kind.isTypeAlias_of_aliased? hk
    have htyped := (hs.named (h.clean hclean) d n _ hd href).2 d' rfl halias
    exact ⟨d', ⟨k, hk, .refl k⟩, .inl htyped, fun m hm => hshuns d' halias htyped m ⟨k, hk, hm⟩⟩

theorem Expanded.later (hs : Expanded t s) (h : Spares t region s s')
    (hframes : ∀ f ∈ s'.frames, ∀ q ∈ f, (t.kind q.2).hasSignature = true)
    (hshuns : s.Shuns t region)
    (hnamed : s'.Clean → ∀ i n r, t.WrittenFor i n → s'.references.get? n = some r →
      s.references.get? n = some r ∨ (∃ x, t.kind n = .nameType x ∧ x.text ≠ "Self") ∧
        ∀ d, r = .direct d → (t.kind d).isTypeAlias = true → s'.types.get? d ≠ none)
    (hnew : s'.Clean → ∀ d k ty, (t.kind d).aliased? = some k → s.types.get? d = none →
      s'.types.get? d = some ty → (s'.program t).Expands k ty) : Expanded t s' where
  frames := hframes
  named := by
    intro hclean i n r hn hr
    rcases hnamed hclean i n r hn hr with hold | hnew
    · obtain ⟨hx, htyped⟩ := hs.named (h.clean hclean) i n r hn hold
      refine ⟨hx, fun d hd halias => ?_⟩
      obtain ⟨ty, hty⟩ := Option.ne_none_iff_exists'.mp (htyped d hd halias)
      simp [h.aliases d ty halias hty]
    · exact hnew
  expands := by
    intro hclean d k ty hd hty
    have halias := Kind.isTypeAlias_of_aliased? hd
    cases hold : s.types.get? d with
    | none => exact hnew hclean d k ty hd hold hty
    | some old =>
        cases (h.aliases d old halias hold).symm.trans hty
        exact h.expands hs hclean hshuns (hs.expands (h.clean hclean) d k _ hd hold)
          ⟨k, hd, .refl k⟩ (.inl (by simp [hold]))
          fun m hm => hshuns d halias (by simp [hold]) m ⟨k, hd, hm⟩

end States

def Job.Unfolded (t : Tree) : Job → NodeId → Prop
  | typeExpr n _ => t.Below n
  | _ => nowhere

def Job.Grounded (t : Tree) (s : State) : Job → Prop
  | signature d => (t.kind d).hasSignature = true
  | expr n _ => (t.kind n).isExpr = true
  | typeExpr n ctx => (t.kind n).isType = true ∧ ∀ d, t.WrittenFor d n →
      s.inProgress.get? d ≠ none ∧ s.types.get? d = none ∧
        ∀ g ∈ ctx.generics, (t.kind g).isGeneric = true
  | _ => True

def State.Settled (s : State) (t : Tree) (d : NodeId) : Prop :=
  s.Clean → (t.kind d).isMember = true → ∀ i, t.Below d i → (t.kind i).isTypeAlias = true →
    s.types.get? i ≠ none

structure Expanding (t : Tree) (region : NodeId → Prop) (s s' : State) : Prop where
  spares : Spares t region s s'
  expanded : Expanded t s'

section Steps

variable {t : Tree} {region region' : NodeId → Prop} {s s₁ s' : State}

theorem Expanding.refl (hs : Expanded t s) : Expanding t region s s := ⟨.refl s, hs⟩

theorem Expanding.trans (h : Expanding t region s s₁) (h' : Expanding t region s₁ s') :
    Expanding t region s s' :=
  ⟨h.spares.trans h'.spares, h'.expanded⟩

theorem Job.Grounded.later {n : NodeId} {ctx : Context} (h : Job.Grounded t s (.typeExpr n ctx))
    (hspares : Spares t region s s') : Job.Grounded t s' (.typeExpr n ctx) := by
  refine ⟨h.1, fun d hd => ?_⟩
  obtain ⟨hbusy, hnew, hgenerics⟩ := h.2 d hd
  exact ⟨by rwa [hspares.inProgress], by rwa [hspares.busy d hd.isTypeAlias hbusy], hgenerics⟩

theorem State.Settled.later {d : NodeId} (h : s.Settled t d) (hspares : Spares t region s s') :
    s'.Settled t d := by
  intro hclean hmember i hi halias
  obtain ⟨ty, hty⟩ := Option.ne_none_iff_exists'.mp (h (hspares.clean hclean) hmember i hi halias)
  simp [hspares.aliases i ty halias hty]

theorem Expanding.anywhere (h : Expanding t nowhere s s') : Expanding t region s s' :=
  ⟨h.spares.within fun _ _ _ _ hin => hin.elim, h.expanded⟩

theorem Job.Grounded.shuns (ht : t.WellFormed) {n : NodeId} {ctx : Context}
    (h : Job.Grounded t s (.typeExpr n ctx)) : s.Shuns t (t.Below n) :=
  fun d _ htyped _ hm hbelow => htyped (h.2 d (hm.of_below ht h.1 hbelow)).2.1

theorem shuns_nowhere : s.Shuns t nowhere := fun _ _ _ _ _ hin => hin

theorem Expanded.same (hs : Expanded t s) (hclean : s'.Clean → s.Clean)
    (hprogress : s'.inProgress = s.inProgress) (htypes : s'.types = s.types)
    (hreferences : s'.references = s.references)
    (hframes : ∀ f ∈ s'.frames, ∀ q ∈ f, (t.kind q.2).hasSignature = true) :
    Expanding t nowhere s s' := by
  have hspares : Spares t nowhere s s' := by
    refine ⟨hclean, fun d => ?_, fun d ty _ hty => ?_, fun d _ _ => ?_, fun _ d n _ _ _ => ?_,
      fun _ d n _ _ _ => ?_⟩
    · rw [hprogress]
    · rwa [htypes]
    · rw [htypes]
    · rw [htypes]
    · rw [hreferences]
  refine ⟨hspares, hs.later hspares hframes shuns_nowhere (fun _ _ n r _ hr => ?_)
    fun _ d k ty _ hnone hty => ?_⟩
  · rw [hreferences] at hr
    exact .inl hr
  · rw [htypes, hnone] at hty
    cases hty

theorem Quiet.expanding (h : Quiet s s') (hs : Expanded t s) : Expanding t nowhere s s' := by
  have hsame := h.same
  refine hs.same h.clean ?_ ?_ ?_ ?_ <;> rw [hsame]
  exact hs.frames

theorem spares_setType {n : NodeId} {ty : Ty} (hn : (t.kind n).isTypeAlias = false) :
    Spares t (· = n) s { s with types := s.types.insert n ty } := by
  have hne {d : NodeId} (hd : (t.kind d).isTypeAlias = true) : n ≠ d := by
    rintro rfl
    simp [hd] at hn
  refine ⟨id, fun _ => rfl, fun d _ hd hty => ?_, fun d hd _ => ?_, fun _ d m _ _ hout => ?_,
    fun _ _ _ _ _ _ => rfl⟩
  · rwa [Table.get?_insert, if_neg (hne hd)]
  · rw [Table.get?_insert, if_neg (hne hd)]
  · rw [Table.get?_insert, if_neg fun heq => hout heq.symm]

theorem Expanded.setType (hs : Expanded t s) {n : NodeId} (ty : Ty)
    (hn : (t.kind n).isTypeAlias = false) (hshuns : s.Shuns t (· = n)) :
    Expanding t (· = n) s { s with types := s.types.insert n ty } := by
  refine ⟨spares_setType hn, hs.later (spares_setType hn) hs.frames hshuns
    (fun _ _ _ _ _ hr => .inl hr) fun _ d k ty' hd hnone hty => ?_⟩
  have hne : n ≠ d := by
    rintro rfl
    simp [Kind.isTypeAlias_of_aliased? hd] at hn
  simp [hne, hnone] at hty

theorem spares_refer {n : NodeId} {r : Reference} :
    Spares t (· = n) s { s with references := s.references.insert n r } := by
  refine ⟨id, fun _ => rfl, fun _ _ _ hty => hty, fun _ _ _ => rfl, fun _ _ _ _ _ _ => rfl,
    fun _ d m _ _ hout => ?_⟩
  rw [Table.get?_insert, if_neg fun heq => hout heq.symm]

theorem Expanded.refer (hs : Expanded t s) {n : NodeId} {r : Reference}
    (hshuns : s.Shuns t (· = n))
    (hnamed : s.Clean → ∀ i, t.WrittenFor i n →
      (∃ x, t.kind n = .nameType x ∧ x.text ≠ "Self") ∧
        ∀ d, r = .direct d → (t.kind d).isTypeAlias = true → s.types.get? d ≠ none) :
    Expanding t (· = n) s { s with references := s.references.insert n r } := by
  refine ⟨spares_refer, hs.later spares_refer hs.frames hshuns (fun hclean i m r' hm hr => ?_)
    fun _ d k ty _ hnone hty => absurd hty (by simp [hnone])⟩
  rw [Table.get?_insert] at hr
  split at hr
  · next heq =>
      cases hr
      subst heq
      exact .inr (hnamed hclean i hm)
  · exact .inl hr

theorem shuns_of_isType (ht : t.WellFormed) {n : NodeId} (hn : (t.kind n).isType = false) :
    s.Shuns t (· = n) := by
  rintro d - - m hm rfl
  simp [hm.isType ht] at hn

theorem Expanding.elsewhere (ht : t.WellFormed) {n : NodeId} (hn : (t.kind n).isType = false)
    (h : Expanding t (· = n) s s') : Expanding t nowhere s s' := by
  refine ⟨h.spares.within ?_, h.expanded⟩
  rintro d m hm - rfl
  simp [hm.isType ht] at hn

theorem State.holds_start {d i : NodeId} (h : s.Holds i) :
    State.Holds { s with inProgress := s.inProgress.insert d () } i := by
  refine h.imp id fun hbusy => ?_
  rw [Table.get?_insert]
  split
  · simp
  · exact hbusy

theorem Expanded.start (hs : Expanded t s) (d : NodeId) :
    Expanded t { s with inProgress := s.inProgress.insert d () } :=
  ⟨hs.frames, hs.named, hs.expands⟩

theorem Expanding.started {d : NodeId} (hidle : s.inProgress.get? d = none)
    (h : Expanding t region { s with inProgress := s.inProgress.insert d () } s') :
    Expanding t region s { s' with inProgress := s'.inProgress.erase d } := by
  obtain ⟨hspares, hexpanded⟩ := h
  refine ⟨⟨hspares.clean, fun i => ?_, hspares.aliases, fun i hi hbusy => ?_,
    fun hclean i n hn hheld => hspares.types hclean i n hn (State.holds_start hheld),
    fun hclean i n hn hheld => hspares.references hclean i n hn (State.holds_start hheld)⟩,
    hexpanded.frames, hexpanded.named, hexpanded.expands⟩
  · rw [Table.get?_erase]
    split
    · next heq => rw [← heq, hidle]
    · next hne => rw [hspares.inProgress, Table.get?_insert, if_neg hne]
  · have hne : d ≠ i := by
      rintro rfl
      exact hbusy hidle
    exact hspares.busy i hi (by rwa [Table.get?_insert, if_neg hne])

end Steps

def Job.Expands (t : Tree) (a : Ty) (s : State) : Job → Prop
  | typeExpr n _ => s.Clean → ∀ d, t.WrittenFor d n → (s.program t).Expands n a
  | typeAlias d => s.Clean → (t.kind d).isTypeAlias = true → s.types.get? d = some a
  | decl d => s.Settled t d
  | _ => True

def Unfolds (t : Tree) (run : Run) : Prop :=
  ∀ j s, Expanded t s → j.Grounded t s →
    Ends (run j) s fun a s' => Expanding t (j.Unfolded t) s s' ∧ j.Expands t a s'

def Harmless {α : Type} (t : Tree) (m : CheckM α) : Prop :=
  ∀ s, Expanded t s → Ends m s fun _ s' => Expanding t nowhere s s'

namespace Harmless

variable {α β : Type} {t : Tree} {m : CheckM α} {f : α → CheckM β}

theorem pure (a : α) : Harmless t (Pure.pure a) := fun _ hs => .pure (.refl hs)

theorem bind (hm : Harmless t m) (hf : ∀ a, Harmless t (f a)) : Harmless t (m >>= f) :=
  fun s hs => (hm s hs).bind fun a s₁ h => (hf a s₁ h.expanded).mono fun _ _ h' => h.trans h'

theorem get {f : State → CheckM β} (hf : ∀ s, Expanded t s →
    Ends (f s) s fun _ s' => Expanding t nowhere s s') : Harmless t (MonadState.get >>= f) :=
  fun s hs => .get (hf s hs)

theorem typeOf {n : NodeId} {f : Option Ty → CheckM β} (hf : ∀ ty, Harmless t (f ty)) :
    Harmless t (Check.typeOf n >>= f) :=
  fun s hs => .typeOf (hf _ s hs)

theorem mapM {f : α → CheckM β} {as : List α} (hf : ∀ a ∈ as, Harmless t (f a)) :
    Harmless t (as.mapM f) := by
  induction as with
  | nil => exact .pure []
  | cons a as ih =>
      rw [List.forall_mem_cons] at hf
      rw [List.mapM_cons]
      exact .bind hf.1 fun _ => .bind (ih hf.2) fun _ => .pure _

theorem foldlM {f : β → α → CheckM β} (hf : ∀ b a, Harmless t (f b a)) (as : List α) (b : β) :
    Harmless t (as.foldlM f b) := by
  induction as generalizing b with
  | nil => exact .pure b
  | cons a as ih => exact .bind (hf b a) ih

end Harmless

end LanguageService.Check
