import LanguageService.Proofs.CheckedDecl
import LanguageService.Proofs.LexicalStmt

namespace LanguageService

theorem Kind.exists_of_hasParameters {k : Kind} {ps : List NodeId} (h : k.parameters? = some ps) :
    k.isDeclaration = true ∧ k.isBinding = false ∧ k.hasRule = true ∧ k.isExpr = false := by
  cases k <;> simp_all [parameters?, isDeclaration, isBinding, hasRule, isExpr]

namespace Check

variable {e : Env} {run : Run} {w : Nat} {s : State}

section Covering

variable (he : e.Scoped) {d : NodeId}

include he

theorem State.Covers.of_isMemberwise {i : NodeId} (hi : (e.tree.kind i).isMemberwise = true) :
    s.Covers e.tree i := by
  obtain ⟨introducer, ps, synthesized, hk⟩ := Kind.exists_of_isMemberwise hi
  refine .of_children (by simp [hk, Kind.isExpr]) fun c hc => ?_
  have hps : c ∈ ps := by simpa [Tree.children, hk, Kind.children] using hc
  have hparameter : (e.tree.kind c).isParameter = true :=
    he.tree.fits i (Kind.isParameter, c) (by simp [hk, Kind.parts, hps])
  exact .of_isInert he.tree (by simp [Kind.isInert, hparameter])

theorem State.Covers.of_members (ms : List NodeId) (hd : (e.tree.kind d).isExpr = false)
    (hparts : ∀ p ∈ (e.tree.kind d).parts, p.2 ∈ ms ∨
      p.1 = Kind.isMemberwise ∨ p.1 = Kind.isType ∨ p.1 = Kind.isGeneric)
    (hmembers : ∀ m ∈ ms, s.Covers e.tree m) : s.Covers e.tree d := by
  refine .of_children hd fun c hc => ?_
  obtain ⟨f, hf, hkind⟩ := Tree.kind_of_child he.tree hc
  rcases hparts _ hf with hc | rfl | rfl | rfl
  · exact hmembers c hc
  · exact .of_isMemberwise he hkind
  · exact .of_isInert he.tree (by simp [Kind.isInert, hkind])
  · exact .of_isInert he.tree (by simp [Kind.isInert, hkind])

theorem State.Covers.of_bodies {ps : List NodeId} (hps : (e.tree.kind d).parameters? = some ps)
    (hbodies : ∀ b ∈ e.tree.bodies d, s.Covers e.tree b) : s.Covers e.tree d := by
  obtain ⟨hdecl, hbinding, hrule, hexpr⟩ := Kind.exists_of_hasParameters hps
  refine .of_children hexpr fun c hc => ?_
  obtain ⟨f, hf, hkind⟩ := Tree.kind_of_child he.tree hc
  rcases Tree.parts_of_hasRule hdecl hbinding hrule _ hf with
    (rfl | rfl | rfl) | hbody | ⟨rfl, hvariant⟩
  · exact .of_isInert he.tree (by simp [Kind.isInert, hkind])
  · exact .of_isInert he.tree (by simp [Kind.isInert, hkind])
  · exact .of_isInert he.tree (by simp [Kind.isInert, hkind])
  · exact hbodies c hbody
  · obtain ⟨introducer, effect, b, hk⟩ := Kind.exists_of_isVariant hkind
    refine .of_children (by simp [hk, Kind.isExpr]) fun c' hc' => ?_
    obtain rfl : c' = b := by simpa [Tree.children, hk, Kind.children] using hc'
    exact hbodies c' (hvariant c' (by simp [variantBody, hk]))

end Covering

section Bodies

variable (he : e.Scoped) (hrun : Solves e run w) {d : NodeId} {ps : List NodeId}
  (hps : (e.tree.kind d).parameters? = some ps) (hmember : e.tree.IsMember d)
  (hreached : e.tree.Reached d)

include he hrun hps hmember hreached

theorem body_passes {b : NodeId} (output : Ty) (hs : s.Lexical e) (hb : b ∈ e.tree.bodies d)
    (huntouched : s.Untouched e.tree b) (hw : (Job.decl d).weight e.tree s < w + 1) :
    Succeeds (body e run d ps output b) s fun _ s' =>
      Passes e (e.tree.Below b) s s' ∧ s'.frames = s.frames ∧ s'.Covers e.tree b := by
  obtain ⟨q, hq⟩ := hmember
  obtain ⟨hlocals, hhost⟩ := Tree.scope_of_body he.tree hq hb hps
  obtain ⟨hstmt, hbelow⟩ := Tree.isStmt_of_mem_bodies he.tree hb
  have hframes : [parameterFrame e ps] = e.tree.frames b := by
    rw [Tree.parameterFrame_eq, Tree.frames, hlocals]
    rfl
  rw [body]
  refine (contextOf_serves hrun he hs fun q _ => ?_).bind ?_
  · exact Job.affords hw (by simp only [Job.rank]; omega)
  · rintro ctx s₁ ⟨hserves, hscope, hctx⟩
    have hw₁ : ∀ ctx : Context, (Job.stmt b ctx).weight e.tree s₁ < w := fun ctx =>
      hserves.weight_lt (Job.affords hw (by simp only [Job.rank]; omega))
    have huntouched₁ : s₁.Untouched e.tree b :=
      huntouched.later hserves.toGrows fun _ hx => hx.2
    have hreached' : e.tree.Reached b := by
      obtain ⟨u, hu, hd⟩ := hreached
      exact ⟨u, hu, hd.trans hbelow⟩
    refine (withFrames_passes (Q := fun _ s' => s'.Covers e.tree b) hserves.lexical fun hs₂ =>
      (hrun (.stmt b { ctx with returnType := some output }) _ hs₂
        ⟨hstmt, hreached', by rw [hhost, hscope], hctx, hframes, ?_⟩ (hw₁ _)).mono
          fun _ s' h => ⟨h.1, h.2.2⟩).bind ?_
    · exact huntouched₁
    · rintro - s₂ ⟨hpasses, hback, hcovers⟩
      exact .pure ⟨hserves.anywhere.trans hpasses, hback.trans hserves.frames, hcovers⟩

theorem bodies_pass {bs : List NodeId} (output : Ty) (hs : s.Lexical e)
    (hbs : ∀ b ∈ bs, b ∈ e.tree.bodies d)
    (hapart : bs.Pairwise fun b b' => ∀ x, ¬ (e.tree.Below b x ∧ e.tree.Below b' x))
    (huntouched : ∀ b ∈ bs, s.Untouched e.tree b)
    (hw : (Job.decl d).weight e.tree s < w + 1) :
    Succeeds (bodies e run d ps output bs) s fun _ s' =>
      Passes e (fun x => ∃ b ∈ bs, e.tree.Below b x) s s' ∧ s'.frames = s.frames ∧
        ∀ b ∈ bs, s'.Covers e.tree b := by
  induction bs generalizing s with
  | nil => exact .pure ⟨.refl hs, rfl, List.forall_mem_nil _⟩
  | cons b bs ih =>
      rw [List.pairwise_cons] at hapart
      rw [bodies]
      refine (body_passes he hrun hps hmember hreached output hs (hbs b (by simp))
        (huntouched b (by simp)) hw).bind ?_
      rintro - s₁ ⟨hpasses, hframes, hcovers⟩
      refine (ih hpasses.lexical (fun c hc => hbs c (by simp [hc])) hapart.2 (fun c hc => ?_)
        (hpasses.weight_lt hw)).mono ?_
      · exact (huntouched c (by simp [hc])).later hpasses.toGrows
          fun x hx => hapart.1 c hc x hx.symm
      · rintro - s₂ ⟨hpasses', hframes', hcovers'⟩
        exact ⟨.cons hpasses hpasses', hframes'.trans hframes,
          List.forall_mem_cons.mpr ⟨hcovers.later hpasses'.toGrows, hcovers'⟩⟩

theorem function_passes {bs : List NodeId} (hbs : e.tree.bodies d = bs) (output : Ty → Ty)
    (hs : s.Lexical e) (huntouched : s.Untouched e.tree d)
    (hw : (Job.decl d).weight e.tree s < w + 1) :
    Succeeds (run (.signature d) >>= fun ty => bodies e run d ps (output ty) bs) s
      fun _ s' => Passes e (e.tree.Below d) s s' ∧ s'.frames = s.frames ∧ s'.Covers e.tree d := by
  subst hbs
  obtain ⟨hkind, -, -, -⟩ := Kind.exists_of_hasParameters hps
  have hbelow {b : NodeId} (hb : b ∈ e.tree.bodies d) : e.tree.Below d b :=
    (Tree.isStmt_of_mem_bodies he.tree hb).2
  refine (hrun.signature hs hkind
    (Job.affords hw (by simp only [Job.rank]; omega))).bind ?_
  rintro ty s₁ ⟨hserves, -⟩
  have huntouched₁ := huntouched.later hserves.toGrows fun _ hx => hx.2
  refine (bodies_pass he hrun hps hmember hreached (output ty) hserves.lexical (fun _ hb => hb)
    (bodies_pairwise he.tree d) (fun b hb c hc hx => huntouched₁ c hc ((hbelow hb).trans hx))
    (hserves.weight_lt hw)).mono ?_
  rintro - s₂ ⟨hpasses, hframes, hcovers⟩
  refine ⟨hserves.anywhere.trans (hpasses.widen ?_), hframes.trans hserves.frames,
    .of_bodies he hps hcovers⟩
  rintro x ⟨b, hb, hx⟩
  exact (hbelow hb).trans hx

end Bodies

section Decls

variable (he : e.Scoped) {d : NodeId}

theorem Job.Stands.decl_later {region : NodeId → Prop} {s₁ : State}
    (h : Job.Stands e s (.decl d)) (hpasses : Passes e region s s₁)
    (hframes : s₁.frames = s.frames) (hout : ∀ x, ¬ (e.tree.Below d x ∧ region x)) :
    Job.Stands e s₁ (.decl d) := by
  obtain ⟨hmember, hreached, hempty, hcovered, huntouched⟩ := h
  refine ⟨hmember, hreached, hframes.trans hempty, fun b hb => ?_,
    huntouched.later hpasses.toGrows hout⟩
  rcases hpasses.covers b hb with hb | hb
  · exact (hcovered b hb).later hpasses.toGrows
  · exact hb

theorem Job.Stands.member (h : Job.Stands e s (.decl d)) {m : NodeId}
    (hm : (Kind.isMember, m) ∈ (e.tree.kind d).parts) : Job.Stands e s (.decl m) := by
  obtain ⟨-, hreached, hempty, hcovered, huntouched⟩ := h
  have hchild := Tree.child_of_part hm
  exact ⟨⟨d, hm⟩, hreached.child hchild, hempty, hcovered, fun b hb hbelow =>
    huntouched b hb (.of_child hchild hbelow)⟩

variable (hrun : Solves e run w)

include hrun

theorem decls_pass {ds : List NodeId} (hs : s.Lexical e)
    (hapart : ds.Pairwise fun d d' => ∀ x, ¬ (e.tree.Below d x ∧ e.tree.Below d' x))
    (hstands : ∀ d ∈ ds, Job.Stands e s (.decl d))
    (hw : ∀ d ∈ ds, (Job.decl d).weight e.tree s < w) :
    Succeeds (each run (ds.map .decl)) s fun _ s' =>
      Passes e (fun x => ∃ d ∈ ds, e.tree.Below d x) s s' ∧ s'.frames = s.frames ∧
        ∀ d ∈ ds, s'.Covers e.tree d := by
  induction ds generalizing s with
  | nil => exact .pure ⟨.refl hs, rfl, List.forall_mem_nil _⟩
  | cons d ds ih =>
      rw [List.pairwise_cons] at hapart
      refine .each_cons (hrun (.decl d) s hs (hstands d (by simp)) (hw d (by simp))) ?_
      rintro a s₁ ⟨hpasses, hframes, hcovers⟩
      refine (ih hpasses.lexical hapart.2 (fun c hc => ?_) fun c hc => ?_).mono ?_
      · exact (hstands c (by simp [hc])).decl_later hpasses hframes
          fun x hx => hapart.1 c hc x hx.symm
      · exact hpasses.weight_lt (hw c (by simp [hc]))
      · rintro - s₂ ⟨hpasses', hframes', hcovers'⟩
        exact ⟨.cons hpasses hpasses', hframes'.trans hframes,
          List.forall_mem_cons.mpr ⟨hcovers.later hpasses'.toGrows, hcovers'⟩⟩

theorem conformances_serves (ns : List NodeId) {ctx : Context} (hs : s.Lexical e)
    (hns : ∀ n ∈ ns, ∀ s, Job.Stands e s (.typeExpr n ctx))
    (hw : ∀ n ∈ ns, (Job.typeExpr n ctx).weight e.tree s < w) :
    Succeeds (conformances e run ctx ns) s fun _ s' => Serves e s s' := by
  induction ns generalizing s with
  | nil => exact .pure (.refl hs)
  | cons n ns ih =>
      rw [conformances]
      refine (hrun.typeExpr hs (hns n (by simp) s) (hw n (by simp))).bind fun ty s₁ hserves => ?_
      have hrest {s₂ : State} (hserves₂ : Serves e s s₂) :
          Succeeds (conformances e run ctx ns) s₂ fun _ s' => Serves e s s' :=
        (ih hserves₂.lexical (fun m hm => hns m (by simp [hm])) fun m hm =>
          hserves₂.weight_lt (hw m (by simp [hm]))).mono
            fun _ _ h => hserves₂.trans h
      split
      · exact hrest hserves
      · exact hrest hserves
      · exact (serves_complain hserves.lexical _ rfl).bind fun _ s₂ h => hrest (hserves.trans h)

include he

theorem members_pass (ms : List NodeId) {s₁ : State} (hserves : Serves e s s₁)
    (hstands : Job.Stands e s (.decl d)) (hw : (Job.decl d).weight e.tree s < w + 1)
    (hexpr : (e.tree.kind d).isExpr = false) (hms : ms.Sublist (e.tree.children d))
    (hmember : ∀ m ∈ ms, (Kind.isMember, m) ∈ (e.tree.kind d).parts)
    (hparts : ∀ p ∈ (e.tree.kind d).parts, p.2 ∈ ms ∨
      p.1 = Kind.isMemberwise ∨ p.1 = Kind.isType ∨ p.1 = Kind.isGeneric) :
    Succeeds (each run (ms.map .decl)) s₁ fun _ s' =>
      Passes e (e.tree.Below d) s s' ∧ s'.frames = s.frames ∧ s'.Covers e.tree d := by
  refine (decls_pass hrun hserves.lexical ((Tree.children_pairwise he.tree d).sublist hms)
    (fun m hm => ?_) fun m hm => ?_).mono ?_
  · exact (hstands.member (hmember m hm)).decl_later hserves.toPasses hserves.frames
      fun _ hx => hx.2
  · have hchild := Tree.child_of_part (hmember m hm)
    exact hserves.weight_lt (Job.affords hw
      (Job.rank_decl_lt (he.tree.child_lt d m hchild) (Tree.lt_size_of_child hchild)))
  · rintro - s₂ ⟨hpasses, hframes, hcovers⟩
    refine ⟨hserves.anywhere.trans (hpasses.widen ?_), hframes.trans hserves.frames,
      .of_members he ms hexpr hparts hcovers⟩
    rintro x ⟨m, hm, hx⟩
    exact .of_child (hms.subset hm) hx

theorem product_passes {introducer : Site} {x : Name} {gs ms : List NodeId}
    {memberwise : Option NodeId} (hk : e.tree.kind d = .product introducer x gs ms memberwise)
    (hs : s.Lexical e) (hstands : Job.Stands e s (.decl d))
    (hw : (Job.decl d).weight e.tree s < w + 1) :
    Succeeds (each run (ms.map .decl ++ memberwise.toList.map .signature)) s fun _ s' =>
      Passes e (e.tree.Below d) s s' ∧ s'.frames = s.frames ∧ s'.Covers e.tree d := by
  have hms : ms.Sublist (e.tree.children d) := by
    rw [Tree.children, hk, Kind.children, List.append_assoc]
    exact (List.sublist_append_left _ _).trans (List.sublist_append_right _ _)
  rw [each_append]
  refine (members_pass he hrun ms (.refl hs) hstands hw (by simp [hk, Kind.isExpr]) hms
    (by simp +contextual [hk, Kind.parts]) ?_).bind ?_
  · simp +contextual [hk, Kind.parts, or_imp, forall_and]
  · rintro - s₁ ⟨hpasses, hframes, hcovers⟩
    cases memberwise with
    | none => exact .pure ⟨hpasses, hframes, hcovers⟩
    | some i =>
        have hi := he.tree.fits d (Kind.isMemberwise, i) (by simp [hk, Kind.parts])
        obtain ⟨introducer, ps, synthesized, hinit⟩ := Kind.exists_of_isMemberwise hi
        refine .each_cons (hrun.signature hpasses.lexical (by simp [hinit, Kind.isDeclaration])
          (hpasses.weight_lt (Job.affords hw (by simp only [Job.rank]; omega)))) ?_
        rintro ty s₂ ⟨hserves, -⟩
        exact .pure ⟨hpasses.trans hserves.anywhere, hserves.frames.trans hframes,
          hcovers.later hserves.toGrows⟩

theorem conformance_passes {introducer : Site} {subject : NodeId} {ts ms : List NodeId}
    (hk : e.tree.kind d = .conformance introducer subject ts ms) (hs : s.Lexical e)
    (hstands : Job.Stands e s (.decl d)) (hw : (Job.decl d).weight e.tree s < w + 1) :
    Succeeds (each run [.subject d] >>= fun _ => contextOf e run d >>= fun ctx =>
      conformances e run ctx ts >>= fun _ => each run (ms.map .decl)) s fun _ s' =>
        Passes e (e.tree.Below d) s s' ∧ s'.frames = s.frames ∧ s'.Covers e.tree d := by
  have hsubject (q : NodeId) : (Job.subject q).weight e.tree s < w :=
    Job.affords hw (by simp only [Job.rank]; omega)
  have hresolve : Succeeds (each run [.subject d]) s fun _ s' => Serves e s s' :=
    .each_cons (hrun.subject hs (hsubject d)) fun _ _ h => .pure h
  refine hresolve.bind fun _ s₁ hserves₁ => ?_
  refine (contextOf_serves hrun he hserves₁.lexical
    fun q _ => hserves₁.weight_lt (hsubject q)).bind ?_
  rintro ctx s₂ ⟨hserves₂, hscope, hctx⟩
  have hserves := hserves₁.trans hserves₂
  refine (conformances_serves hrun ts hserves.lexical (fun n hn s => ?_) fun n _ =>
    hserves.weight_lt (Job.affords hw (by simp only [Job.rank]; omega))).bind
      fun _ s₃ hserves₃ => ?_
  · have hpart : (Kind.isType, n) ∈ (e.tree.kind d).parts := by simp [hk, Kind.parts, hn]
    refine ⟨he.tree.fits d _ hpart, ?_, hctx⟩
    rw [Tree.typeHome?_of_child he.tree (Tree.child_of_part hpart) (by simp [hk, Kind.isType]),
      hscope]
    have hne : n ≠ subject := by
      have hnodup := he.tree.children_nodup d
      rw [Tree.children, hk, Kind.children, List.cons_append, List.nodup_cons] at hnodup
      rintro rfl
      exact hnodup.1 (List.mem_append_left ms hn)
    simp [Tree.typeHomeAt, hk, hne]
  · refine members_pass he hrun ms (hserves.trans hserves₃) hstands hw (by simp [hk, Kind.isExpr])
      ?_ (by simp +contextual [hk, Kind.parts]) ?_
    · rw [Tree.children, hk, Kind.children]
      exact List.sublist_append_right _ _
    · simp +contextual [hk, Kind.parts, or_imp, forall_and]

theorem memberBinding_passes (hb : (e.tree.kind d).isBinding = true) (hs : s.Lexical e)
    (hstands : Job.Stands e s (.decl d)) (hw : (Job.decl d).weight e.tree s < w + 1) :
    Succeeds (contextOf e run d >>= fun ctx => each run [.binding d ctx false]) s fun _ s' =>
      Passes e (e.tree.Below d) s s' ∧ s'.frames = s.frames ∧ s'.Covers e.tree d := by
  obtain ⟨hmember, hreached, hempty, hcovered, -⟩ := hstands
  refine (contextOf_serves hrun he hs fun q _ =>
    Job.affords hw (by simp only [Job.rank]; omega)).bind ?_
  rintro ctx s₁ ⟨hserves, hscope, hctx⟩
  refine .each_cons (hrun (.binding d ctx false) s₁ hserves.lexical
    (.of_memberBinding he hb hmember hreached (hserves.frames.trans hempty) hscope hctx)
    (hserves.weight_lt (Job.affords hw (by simp only [Job.rank]; omega)))) ?_
  rintro a s₂ ⟨hpasses, hchecked, hback, -⟩
  have hserves₂ : Serves e s s₂ := hserves.trans ⟨hpasses, hback rfl⟩
  refine .pure ⟨hserves₂.anywhere, hserves₂.frames, ?_⟩
  rcases hserves₂.covers d hchecked with hbefore | hcovers
  · exact (hcovered d hbefore).later hserves₂.toGrows
  · exact hcovers

theorem decl_passes (hs : s.Lexical e) (hstands : Job.Stands e s (.decl d))
    (hw : (Job.decl d).weight e.tree s < w + 1) :
    Succeeds (decl e run d) s fun _ s' =>
      Passes e (e.tree.Below d) s s' ∧ s'.frames = s.frames ∧ s'.Covers e.tree d := by
  obtain ⟨hmember, hreached, -, -, huntouched⟩ := id hstands
  have hd : (e.tree.kind d).isMember = true := by
    obtain ⟨q, hq⟩ := hmember
    exact he.tree.fits q _ hq
  have hmembers {ms : List NodeId} {s₁ : State} (hserves : Serves e s s₁) :=
    members_pass he hrun ms hserves hstands hw
  have hfunction {ps bs : List NodeId} (hps : (e.tree.kind d).parameters? = some ps)
      (hbs : e.tree.bodies d = bs) (output : Ty → Ty) :=
    function_passes he hrun hps hmember hreached hbs output hs huntouched hw
  have hleaf {k : Kind} (hk : e.tree.kind d = k) (hchildren : k.children = [])
      (hexpr : k.isExpr = false) : s.Covers e.tree d := by
    subst hk
    exact .of_children hexpr (by simp [Tree.children, hchildren])
  rw [decl]
  cases hk : e.tree.kind d with
  | space _ _ ms =>
      refine hmembers (.refl hs) (by simp [hk, Kind.isExpr])
        (by simp [Tree.children, hk, Kind.children]) (by simp [hk, Kind.parts]) ?_
      simp +contextual [hk, Kind.parts]
  | product => exact product_passes he hrun hk hs hstands hw
  | extension _ _ ms =>
      refine .each_cons (hrun.subject hs (Job.affords hw (by simp only [Job.rank]; omega)))
        fun ty s₁ hserves => ?_
      refine hmembers hserves (by simp [hk, Kind.isExpr])
        (by simp [Tree.children, hk, Kind.children]) (by simp +contextual [hk, Kind.parts]) ?_
      simp +contextual [hk, Kind.parts]
  | conformance => exact conformance_passes he hrun hk hs hstands hw
  | trait _ _ ms =>
      refine hmembers (.refl hs) (by simp [hk, Kind.isExpr])
        (by simp [Tree.children, hk, Kind.children]) (by simp [hk, Kind.parts]) ?_
      simp +contextual [hk, Kind.parts]
  | typeAlias =>
      refine .each_cons (hrun.typeAlias hs ⟨_, _, _, hk⟩
        (Job.affords hw (by simp only [Job.rank]; omega))) ?_
      rintro ty s₁ ⟨hserves, -⟩
      refine .pure ⟨hserves.anywhere, hserves.frames, .of_members he []
        (by simp [hk, Kind.isExpr]) (by simp [hk, Kind.parts]) (List.forall_mem_nil _)⟩
  | function =>
      exact hfunction (by simp [hk, Kind.parameters?]) (by simp [Tree.bodies, hk]) Ty.output
  | method =>
      exact hfunction (by simp [hk, Kind.parameters?]) (by simp [Tree.bodies, hk]) Ty.output
  | init =>
      exact hfunction (by simp [hk, Kind.parameters?]) (by simp [Tree.bodies, hk]) fun _ => .void
  | subscript =>
      exact hfunction (by simp [hk, Kind.parameters?]) (by simp [Tree.bodies, hk]) Ty.output
  | binding => exact memberBinding_passes he hrun (by simp [hk, Kind.isBinding]) hs hstands hw
  | associated => exact .pure ⟨.refl hs, rfl, hleaf hk rfl rfl⟩
  | operator => exact .pure ⟨.refl hs, rfl, hleaf hk rfl rfl⟩
  | _ => simp [hk, Kind.isMember] at hd

end Decls

end Check

end LanguageService
