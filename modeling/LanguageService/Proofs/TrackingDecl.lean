import LanguageService.Proofs.Tracking

namespace LanguageService.Check

variable {e : Env} {run run' : Run} {R : State → State → Prop}

def enter (e : Env) (run : Run) (b : NodeId) (ctx : Context) (inBody : Bool) : CheckM Unit :=
  match e.tree.kind b with
  | .binding p initializer =>
      match e.tree.kind p with
      | .bindingPattern _ _ sub ascription => do
          let t ← bindingTypes e run p ascription initializer ctx
          let _ ← run (.pattern sub t inBody)
      | _ => pure ()
  | _ => pure ()

def State.mark (s : State) (b : NodeId) : State :=
  { s with checkedBindings := s.checkedBindings.insert b () }

theorem step_binding_checked {b : NodeId} {s : State} (h : s.IsChecked b) (ctx : Context)
    (inBody : Bool) : step e run (.binding b ctx inBody) s = some (.void, s) := by
  rw [State.IsChecked] at h
  have hbinding : binding e run b ctx inBody s = some ((), s) := by
    rw [binding]
    change (if s.checkedBindings.contains b = true then pure () else _ : CheckM Unit) s = _
    rw [if_pos h]
    rfl
  change (binding e run b ctx inBody s).bind _ = _
  rw [hbinding]
  rfl

theorem step_binding_unchecked {b : NodeId} {s : State} (h : ¬ s.IsChecked b) (ctx : Context)
    (inBody : Bool) : step e run (.binding b ctx inBody) s =
      (enter e run b ctx inBody (s.mark b)).map fun r => (.void, r.2) := by
  rw [State.IsChecked] at h
  have hbinding : binding e run b ctx inBody s = enter e run b ctx inBody (s.mark b) := by
    rw [binding]
    change (if s.checkedBindings.contains b = true then pure () else _ : CheckM Unit) s = _
    rw [if_neg h]
    rfl
  change (binding e run b ctx inBody s).bind _ = _
  rw [hbinding, Option.map_eq_bind]
  rfl

section Bindings

variable (hR : Stable e R) (ht : e.tree.WellFormed)
  (hrun : ∀ j, j.IsTyping e → Tracks R (run j) (run' j)) {b : NodeId} {ctx : Context}
  (hexpr : ∀ c ∈ e.tree.children b, (e.tree.kind c).isExpr = true →
    Tracks R (run (.expr c ctx)) (run' (.expr c ctx)))

include hR ht hrun hexpr

theorem bindingTypes_tracks {p sub : NodeId} {introducer : Site} {how : Introducer}
    {ascription initializer : Option NodeId}
    (hp : e.tree.kind p = .bindingPattern introducer how sub ascription)
    (hb : e.tree.kind b = .binding p initializer) :
    Tracks R (bindingTypes e run p ascription initializer ctx)
      (bindingTypes e run' p ascription initializer ctx) := by
  have hset (a : Ty) : Tracks R (setType p a >>= fun _ => pure a)
      (setType p a >>= fun _ => pure a) :=
    (hR.setType p a (by simp [hp, Kind.isDeclaration])).bind fun _ => .pure a
  rw [bindingTypes_eq, bindingTypes_eq]
  refine .bind ?_ fun declared => .bind ?_ fun found => ?_
  · cases ascription with
    | none => exact .pure _
    | some a =>
        exact .bind (typePart_tracks hrun ht (q := p) ctx (by simp [hp, Kind.parts])) fun _ =>
          .pure _
  · cases initializer with
    | none => exact .pure _
    | some i =>
        exact .bind (operand_tracks hexpr ht (by simp [hb, Kind.parts])) fun _ => .pure _
  · split
    · exact .bind (expect_tracks hR _ _ _) fun _ => hset _
    · exact hset _

theorem enter_tracks {inBody : Bool}
    (hpattern : ∀ p i q a, e.tree.kind b = .binding p i →
      (Kind.isPattern, q) ∈ (e.tree.kind p).parts →
        Tracks R (run (.pattern q a inBody)) (run' (.pattern q a inBody))) :
    Tracks R (enter e run b ctx inBody) (enter e run' b ctx inBody) := by
  rw [enter, enter]
  split
  · next p initializer hb =>
      split
      · next hp =>
          exact (bindingTypes_tracks hR ht hrun hexpr hp hb).bind fun a =>
            (hpattern p _ _ a hb (by simp [hp, Kind.parts])).bind fun _ => .pure _
      · exact .pure _
  · exact .pure _

end Bindings

theorem each_tracks {js : List Job} (hjs : ∀ j ∈ js, Tracks R (run j) (run' j)) :
    Tracks R (each run js) (each run' js) := by
  rw [each_eq_mapM, each_eq_mapM]
  exact .bind (.mapM hjs) fun _ => .pure _

section Stmts

variable (hR : Stable e R) (ht : e.tree.WellFormed) {n : NodeId} {ctx : Context}

include hR ht

theorem condition_tracks {c : NodeId}
    (hexpr : ∀ c ∈ e.tree.children n, (e.tree.kind c).isExpr = true →
      Tracks R (run (.expr c ctx)) (run' (.expr c ctx)))
    (hc : (Kind.isExpr, c) ∈ (e.tree.kind n).parts) :
    Tracks R (condition e run c ctx) (condition e run' c ctx) :=
  (operand_tracks hexpr ht hc).bind fun _ => expect_tracks hR _ _ _

theorem stmt_tracks
    (hopen : Tracks R (modify fun s => { s with frames := [] :: s.frames })
      (modify fun s => { s with frames := [] :: s.frames }))
    (hclose : Tracks R (modify fun s => { s with frames := s.frames.tail })
      (modify fun s => { s with frames := s.frames.tail }))
    (hexpr : ∀ c ∈ e.tree.children n, (e.tree.kind c).isExpr = true →
      Tracks R (run (.expr c ctx)) (run' (.expr c ctx)))
    (hstmt : ∀ c, (Kind.isStmt, c) ∈ (e.tree.kind n).parts →
      Tracks R (run (.stmt c ctx)) (run' (.stmt c ctx)))
    (hbinding : ∀ b, e.tree.kind n = .decl b →
      Tracks R (run (.binding b ctx true)) (run' (.binding b ctx true))) :
    Tracks R (stmt e run n ctx) (stmt e run' n ctx) := by
  have heach {cs : List NodeId} (hcs : ∀ c ∈ cs, (Kind.isStmt, c) ∈ (e.tree.kind n).parts) :
      Tracks R (each run (cs.map fun c => .stmt c ctx)) (each run' (cs.map fun c => .stmt c ctx)) :=
    each_tracks fun j hj => by
      obtain ⟨c, hc, rfl⟩ := List.mem_map.mp hj
      exact hstmt c (hcs c hc)
  rw [stmt, stmt]
  split
  · next hk => exact hopen.bind fun _ => (heach (by simp [hk, Kind.parts])).bind fun _ => hclose
  · next hk =>
      dsimp only
      split
      · exact (operand_tracks hexpr ht (by simp [hk, Kind.parts])).bind fun _ =>
          expect_tracks hR _ _ _
      · split
        · exact .pure _
        · exact hR.complain _ _
  · next hk =>
      refine each_tracks fun j hj => ?_
      rw [List.mem_singleton.mp hj]
      exact operand_tracks hexpr ht (by simp [hk, Kind.parts])
  · next hk =>
      exact (operand_tracks hexpr ht (by simp [hk, Kind.parts])).bind fun _ =>
        (operand_tracks hexpr ht (by simp [hk, Kind.parts])).bind fun _ => expect_tracks hR _ _ _
  · next body hk =>
      have hbody : ∀ c ∈ [body], (Kind.isStmt, c) ∈ (e.tree.kind n).parts := by
        simp [hk, Kind.parts]
      exact (condition_tracks hR ht hexpr (by simp [hk, Kind.parts])).bind fun _ => heach hbody
  · next hk =>
      exact (condition_tracks hR ht hexpr (by simp [hk, Kind.parts])).bind fun _ =>
        heach (by simp +contextual [hk, Kind.parts])
  · next hk =>
      refine each_tracks fun j hj => ?_
      rw [List.mem_singleton.mp hj]
      exact hbinding _ hk
  · exact .pure _

end Stmts

section Decls

variable (hR : Stable e R) (ht : e.tree.WellFormed)
  (hrun : ∀ j, j.IsTyping e → Tracks R (run j) (run' j)) {d : NodeId}

include hR ht hrun

theorem conformances_tracks {ctx : Context} {ns : List NodeId}
    (hns : ∀ n ∈ ns, (Kind.isType, n) ∈ (e.tree.kind d).parts) :
    Tracks R (conformances e run ctx ns) (conformances e run' ctx ns) := by
  induction ns with
  | nil => exact .pure ()
  | cons n ns ih =>
      rw [List.forall_mem_cons] at hns
      rw [conformances, conformances]
      refine (typePart_tracks hrun ht ctx hns.1).bind fun a => ?_
      dsimp only
      split
      · exact ih hns.2
      · exact ih hns.2
      · exact (hR.complain _ _).bind fun _ => ih hns.2

omit hR ht in
theorem bodies_track {ps bs : List NodeId} {output : Ty}
    (hbody : ∀ b ∈ bs, ∀ ctx, Tracks R (withFrames [parameterFrame e ps] (run (.stmt b ctx)))
      (withFrames [parameterFrame e ps] (run' (.stmt b ctx)))) :
    Tracks R (bodies e run d ps output bs) (bodies e run' d ps output bs) := by
  induction bs with
  | nil => exact .pure ()
  | cons b bs ih =>
      rw [List.forall_mem_cons] at hbody
      rw [bodies, bodies]
      refine .bind ?_ fun _ => ih hbody.2
      exact (contextIn_tracks hrun d).bind fun ctx => (hbody.1 _).bind fun _ => .pure _

theorem decl_tracks
    (hmember : ∀ m, (Kind.isMember, m) ∈ (e.tree.kind d).parts →
      Tracks R (run (.decl m)) (run' (.decl m)))
    (hbody : ∀ ps, (e.tree.kind d).parameters? = some ps → ∀ b ∈ e.tree.bodies d, ∀ ctx,
      Tracks R (withFrames [parameterFrame e ps] (run (.stmt b ctx)))
        (withFrames [parameterFrame e ps] (run' (.stmt b ctx))))
    (hbinding : (e.tree.kind d).isBinding = true →
      Tracks R (contextOf e run d >>= fun ctx => each run [.binding d ctx false])
        (contextOf e run' d >>= fun ctx => each run' [.binding d ctx false])) :
    Tracks R (decl e run d) (decl e run' d) := by
  have hmembers {ms : List NodeId} (hms : ∀ m ∈ ms, (Kind.isMember, m) ∈ (e.tree.kind d).parts) :
      ∀ j ∈ ms.map Job.decl, Tracks R (run j) (run' j) := by
    intro j hj
    obtain ⟨m, hm, rfl⟩ := List.mem_map.mp hj
    exact hmember m (hms m hm)
  have hsubject : Tracks R (run (.subject d)) (run' (.subject d)) := hrun (.subject d) trivial
  have hfunction {ps bs : List NodeId} (hps : (e.tree.kind d).parameters? = some ps)
      (hbs : e.tree.bodies d = bs) (output : Ty → Ty) :
      Tracks R (run (.signature d) >>= fun a => bodies e run d ps (output a) bs)
        (run' (.signature d) >>= fun a => bodies e run' d ps (output a) bs) := by
    subst hbs
    exact (hrun (.signature d) (.of_parameters? hps)).bind fun a => bodies_track hrun (hbody ps hps)
  unfold decl
  cases hk : e.tree.kind d with
  | space i x ms => exact each_tracks (hmembers (by simp [hk, Kind.parts]))
  | product introducer x gs ms memberwise =>
      refine each_tracks fun j hj => ?_
      rcases List.mem_append.mp hj with hj | hj
      · exact hmembers (by simp +contextual [hk, Kind.parts]) j hj
      · obtain ⟨i, hi, rfl⟩ := List.mem_map.mp hj
        have hmemberwise := ht.fits d (Kind.isMemberwise, i) (by
          simpa [hk, Kind.parts] using .inr (.inr (Option.mem_toList.mp hi)))
        obtain ⟨introducer, ps, synthesized, hinit⟩ := Kind.exists_of_isMemberwise hmemberwise
        have hps : (e.tree.kind i).parameters? = some ps := by rw [hinit]; rfl
        exact hrun (.signature i) (.of_parameters? hps)
  | extension i subject ms =>
      refine each_tracks fun j hj => ?_
      rcases List.mem_cons.mp hj with rfl | hj
      · exact hsubject
      · exact hmembers (by simp +contextual [hk, Kind.parts]) j hj
  | conformance i subject ts ms =>
      refine (each_tracks fun j hj => ?_).bind fun _ => (contextIn_tracks hrun d).bind fun ctx =>
        (conformances_tracks hR ht hrun (d := d) ?_).bind fun _ => each_tracks (hmembers ?_)
      · rwa [List.mem_singleton.mp hj]
      · simp +contextual [hk, Kind.parts]
      · simp +contextual [hk, Kind.parts]
  | «trait» i x ms => exact each_tracks (hmembers (by simp [hk, Kind.parts]))
  | typeAlias i x aliased =>
      refine each_tracks fun j hj => ?_
      rw [List.mem_singleton.mp hj]
      exact hrun (.typeAlias d) (by simp [Job.IsTyping, hk, Kind.isTypeAlias])
  | function =>
      exact hfunction (by simp [hk, Kind.parameters?]) (by simp [Tree.bodies, hk]) Ty.output
  | method =>
      exact hfunction (by simp [hk, Kind.parameters?]) (by simp [Tree.bodies, hk]) Ty.output
  | init =>
      exact hfunction (by simp [hk, Kind.parameters?]) (by simp [Tree.bodies, hk]) fun _ => .void
  | subscript =>
      exact hfunction (by simp [hk, Kind.parameters?]) (by simp [Tree.bodies, hk]) Ty.output
  | binding p initializer => exact hbinding (by rw [hk]; rfl)
  | _ => exact .pure ()

end Decls

end LanguageService.Check
