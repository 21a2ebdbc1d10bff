import DirectFuse.RankedNames

/-! Every step of a walk ends, and leaves the name cache ready for the next: the climb over covers
goes up the mounts, the group list outgrows its limit, and the loop goes down the path. -/
namespace WalkEnds

open ExecLogic SysioState SysioInode SysioNamei CoreMoves PathRefs NameForest Sparing RankedNames

variable {D : Type} {I : Sys D → Prop} {e : Env D} (d : Prompt I e)

section Permission

/-- The buffer of the group list doubles until the groups fit or the limit is passed. -/
theorem ldgroupsLoop_avoids (fuel n : ℕ) (enough : (2 ^ 31 - 1) / 2 < n * 2 ^ (fuel - 1))
    (pos : 0 < fuel) : Avoids Fault.diverge (ldgroupsLoop e fuel n) := by
  induction fuel generalizing n with
  | zero => exact absurd pos (Nat.lt_irrefl 0)
  | succ fuel ih =>
    have grow : Avoids Fault.diverge (growGids e n) :=
      avoids_bind malloc_avoids fun _ => avoids_ite (fun _ => avoids_pure _) fun _ =>
        avoids_bind (avoids_write _) fun _ => avoids_pure _
    refine avoids_bind (avoids_read _) fun len => avoids_bind (avoids_ite (fun _ => grow) fun _ =>
      avoids_pure _) fun fits => avoids_ite (fun _ => avoids_pure _) fun _ => avoids_ite (fun _ =>
      avoids_ite (fun _ => avoids_pure _) fun hsmall => ?_) fun _ => avoids_pure _
    cases fuel with
    | zero =>
      rw [Nat.add_sub_cancel, pow_zero, mul_one] at enough
      exact absurd enough hsmall
    | succ fuel =>
      refine ih (n * 2) ?_ (Nat.succ_pos _)
      rw [Nat.add_sub_cancel] at enough ⊢
      rw [mul_assoc, ← pow_succ']
      exact enough

theorem inoOf_avoids (p : Pno) : Avoids Fault.diverge (inoOf p : Sysio D (Option InoId)) :=
  avoids_bind (avoids_read _) fun _ => avoids_bind (avoids_deref (by decide) _) fun _ =>
    avoids_pure _

theorem sysioPermitted_avoids (p : Pno) (amode : ℕ) :
    Avoids Fault.diverge (sysioPermitted e p amode) := by
  have rdonly : Avoids Fault.diverge (isRdonly p : Sysio D Bool) :=
    avoids_bind (avoids_read _) fun _ => avoids_bind (avoids_deref (by decide) _) fun _ =>
      avoids_pure _
  have groups : Avoids Fault.diverge (sysioLdgroups e) := by
    refine avoids_bind (avoids_read _) fun len => ldgroupsLoop_avoids 32 _ ?_ (by decide)
    split <;> omega
  have creds : Avoids Fault.diverge (sysioLdcreds e) :=
    avoids_bind groups fun _ => avoids_ite (fun _ => avoids_pure _) fun _ => avoids_pure _
  refine avoids_bind creds fun cr => avoids_ite (fun _ => avoids_pure _) fun _ =>
    avoids_ite (fun _ => avoids_pure _) fun _ => avoids_ite (fun _ => avoids_pure _) fun _ =>
    avoids_bind (inoOf_avoids p) fun _ => avoids_bind (avoids_check (by decide) _) fun _ =>
    avoids_bind (avoids_deref (by decide) _) fun _ => avoids_bind (avoids_deref (by decide) _)
    fun _ => avoids_ite (fun _ => avoids_pure _) fun _ => avoids_ite (fun _ => avoids_bind rdonly
    fun _ => avoids_ite (fun _ => avoids_pure _) fun _ => avoids_pure _) fun _ => avoids_pure _

end Permission

/-- Releasing an inode ends where the driver's part in it does. -/
theorem iRele_avoids (gone : ∀ i, Avoids Fault.diverge (e.ops.gone i)) (i : InoId) :
    Avoids Fault.diverge (iRele e i) := by
  have remove : ∀ r, Avoids Fault.diverge (itblRemove i r : Sysio D Unit) := fun r =>
    avoids_bind (avoids_deref (by decide) _) fun _ => avoids_write _
  have igone : Avoids Fault.diverge (sysioIGone e i) :=
    avoids_bind (avoids_deref (by decide) _) fun r => avoids_bind (avoids_check (by decide) _)
      fun _ => avoids_bind (avoids_when fun _ => remove r) fun _ => avoids_bind (avoids_write _)
      fun _ => avoids_bind (gone i) fun _ => avoids_bind (avoids_write _) fun _ =>
      avoids_bind (avoids_check (by decide) _) fun _ => avoids_write _
  exact avoids_bind (avoids_deref (by decide) _) fun r => avoids_bind (avoids_check (by decide) _)
    fun _ => avoids_bind (avoids_write _) fun _ => avoids_ite (fun _ => igone) fun _ => avoids_pure _

section Steps

theorem inoOf_ends {s : Sys D} {p : Pno} {Q : Option InoId → Sys D → Prop}
    (h : ∀ r, s.nc.base (s.nc.pnode p).base = some r → Q r.ino s) : Ends (inoOf p) s Q :=
  spares_bind <| pnodeAt_ends <| spares_bind <| baseAt_ends fun r hr => spares_pure (h r hr)

include d

theorem sysioPermitted_ends (p : Pno) (amode : ℕ) {s : Sys D} (h : Ready I s) :
    Ends (sysioPermitted e p amode) s fun _ => Ready I :=
  (sysioPermitted_avoids p amode).spares fun a t run =>
    h.scratch d (sysioPermitted_moves (fun _ _ k => k) p amode s a t run)

theorem readlink_ends (i : InoId) (p : Pno) (n : ℕ) {s : Sys D} (h : Ready I s) :
    Ends (e.ops.readlink i p n) s fun _ => Ready I :=
  spares_mono (d.readlink i p n s h.inv) fun a t run hi =>
    h.slimmer (off_slimmer (d.off.readlink i p n s a t run)) hi

theorem sysioPValidate_ends (p : Pno) (intnt : Option Intent) (path : Option Bytes) {s : Sys D}
    (h : Ready I s) : Ends (sysioPValidate e p intnt path) s fun _ => Ready I := by
  have ends : Ends (sysioPValidate e p intnt path) s fun _ => I := by
    refine spares_bind <| pnodeAt_ends <| spares_bind <| baseAt_ends fun r _ => spares_bind <|
      mountAt_ends fun m _ => spares_bind <| nonNull_ends fun root _ => spares_bind <|
      pnodeAt_ends <| spares_bind <| baseAt_ends fun rootpb _ => spares_bind <| assert_ends <|
      spares_bind <| nonNull_ends fun rooti _ => spares_bind <| spares_mono
      (d.lookup _ _ _ _ _ s h.inv) fun res u _ hu => spares_bind <| baseAt_ends fun r' _ =>
      spares_bind <| spares_mono (Q := fun _ => I) ?_ fun _ _ _ hv => spares_pure hv
    refine spares_when (fun _ => spares_bind <| spares_mono (Q := fun _ => I) ?_ fun _ v _ hv =>
      modBase_ends d hv) fun _ => hu
    cases r'.ino with
    | none => exact spares_pure hu
    | some i => exact d.iRele i u hu
  refine spares_mono ends fun a t run hi => ?_
  have moves : Moves Slimmer (sysioPValidate e p intnt path) := by
    refine moves_bind (pnodeAt_moves p) fun n => moves_bind (baseAt_moves _) fun r =>
      moves_bind (mountAt_moves _) fun m => moves_bind (nonNull_moves _) fun root =>
      moves_bind (pnodeAt_moves _) fun rn => moves_bind (baseAt_moves _) fun rootpb =>
      moves_bind (assert_moves _) fun _ => moves_bind (nonNull_moves _) fun rooti =>
      moves_bind ((d.off.lookup _ _ _ _ _).mono fun _ _ k => off_slimmer k) fun res =>
      moves_bind (baseAt_moves _) fun r' => moves_bind (moves_when fun _ => ?_) fun _ => moves_pure _
    exact moves_bind (ifSome_moves fun i _ => (iRele_moves (fun _ _ k => k) d.off.gone i).mono
      fun _ _ k => off_slimmer k) fun _ => modBase_slimmer (fun _ => .refl _) fun _ => .refl _
  exact h.slimmer (moves s a t run) hi

/-- The climb over the covers: the nodes passed are all on the queue, and every cover is in a mount
made after that of the node it covers. -/
theorem toTopCover_ends (fuel : ℕ) (p : Pno) (passed : List Pno) {s : Sys D} (h : Ready I s)
    (nodup : passed.Nodup) (live : ∀ q ∈ passed, q ∈ s.nc.pnodes)
    (lower : ∀ q ∈ passed, (s.nc.pnode q).mount ≤ (s.nc.pnode p).mount)
    (enough : s.nc.pnodes.length < passed.length + fuel) :
    Ends (toTopCover fuel p) s fun _ => Ready I := by
  induction fuel generalizing p passed s with
  | zero =>
    have hle := (nodup.subperm live).length_le
    omega
  | succ fuel ih =>
    refine spares_bind <| pnodeAt_ends ?_
    cases hc : (s.nc.pnode p).cover with
    | none => exact spares_pure h
    | some c =>
      refine spares_ite (fun _ => spares_pure h) fun hne => ?_
      have hlt := (h.ranked.cover p c hc hne).1
      refine spares_bind <| spares_mono (pRef_ends d c h) fun _ u _ hu => ?_
      obtain ⟨ready, perm, links, hlive⟩ := hu
      refine spares_bind <| spares_mono (pRele_ends d p ready) fun _ v _ hv => ?_
      obtain ⟨ready', pnodes, links'⟩ := hv
      have mount : ∀ q, (v.nc.pnode q).mount = (s.nc.pnode q).mount := fun q =>
        (links_eq ((links' q).trans (links q))).2.2
      refine ih c (c :: passed) ready' (List.nodup_cons.mpr ⟨fun hm => ?_, nodup⟩) (fun q hq => ?_)
        (fun q hq => ?_) ?_
      · exact absurd (lower c hm) (Nat.not_le.mpr hlt)
      · rw [pnodes, perm.mem_iff]
        rcases List.mem_cons.mp hq with rfl | hq
        · exact hlive
        · exact live q hq
      · rw [mount, mount]
        rcases List.mem_cons.mp hq with rfl | hq
        · exact le_refl _
        · exact (lower q hq).trans hlt.le
      · rw [pnodes, perm.length_eq, List.length_cons]
        omega

theorem lookup_ends (parent : Pno) (name : Qstr) (intnt : Option Intent) (path : Option Bytes)
    (check : Bool) {s : Sys D} (h : Ready I s) :
    Ends (lookup e parent name intnt path check) s fun _ => Ready I := by
  have node : ∀ u, Ready I u → Ends (lookupNode e parent name) u fun _ => Ready I := by
    intro u hu
    refine spares_ite (fun _ => ?_) fun _ => spares_ite (fun _ => ?_) fun _ =>
      sysioPFindAlias_ends d parent name hu
    · exact spares_bind <| spares_mono (pRef_ends d parent hu) fun _ _ _ hv => spares_pure hv.1
    · exact spares_bind <| pnodeAt_ends <| spares_bind <| spares_mono (pRef_ends d _ hu)
        fun _ _ _ hv => spares_pure hv.1
  refine spares_bind <| inoOf_ends fun _ _ => spares_ite (fun _ => spares_pure h) fun _ =>
    spares_bind <| spares_mono (spares_ite (fun _ => sysioPermitted_ends d parent X_OK h)
    fun _ => spares_pure h) fun err u _ hu => spares_ite (fun _ => spares_pure hu) fun _ =>
    spares_bind <| spares_mono (node u hu) fun res v _ hv => spares_ite (fun _ => spares_pure hv)
    fun _ => spares_bind <| nonNull_ends fun p _ => spares_bind <| spares_read <| spares_bind <|
    spares_mono (toTopCover_ends d _ p [] hv List.nodup_nil (by simp) (by simp) (by simp))
    fun q w _ hw => spares_bind <| spares_mono (sysioPValidate_ends d q intnt path hw)
    fun err x _ hx => spares_pure hx

theorem walkExit_ends (err : ℤ) (cur parent : Option Pno) {s : Sys D} (h : Ready I s) :
    Ends (walkExit err cur parent) s fun _ => Ready I := by
  have result : Ends (walkResult err cur parent) s fun _ => Ready I := by
    cases cur with
    | some p => exact spares_pure h
    | none =>
      exact spares_bind <| nonNull_ends fun p _ => spares_ite (fun _ => spares_pure h) fun _ =>
        spares_bind <| inoOf_ends fun _ _ => spares_bind <| nonNull_ends fun i _ => spares_bind <|
        inodeAt_ends fun r _ => spares_pure h
  refine spares_bind <| spares_mono result fun res u _ hu => ?_
  have released : Ends (ifSome res.2.2 pRele) u fun _ => Ready I := by
    cases res.2.2 with
    | none => exact spares_pure hu
    | some q => exact spares_mono (pRele_ends d q hu) fun _ _ _ hv => hv.1
  exact spares_bind <| spares_mono released fun _ v _ hv => spares_ite (fun _ => spares_bind <|
    spares_mono (pRele_ends d _ hv) fun _ _ _ hw => spares_pure hw.1) fun _ => spares_pure hv

end Steps

omit d in
theorem walkExit_avoids (err : ℤ) (cur parent : Option Pno) :
    Avoids Fault.diverge (walkExit err cur parent : Sysio D (ℤ × Option Pno)) := by
  have rele : ∀ p, Avoids Fault.diverge (pRele p : Sysio D Unit) := fun p =>
    avoids_bind (avoids_check (by decide) _) fun _ => avoids_write _
  refine avoids_bind ?_ fun res => avoids_bind ?_ fun _ =>
    avoids_ite (fun _ => avoids_bind (rele _) fun _ => avoids_pure _) fun _ => avoids_pure _
  · cases cur with
    | some p => exact avoids_pure _
    | none =>
      exact avoids_bind (avoids_deref (by decide) _) fun p => avoids_ite (fun _ => avoids_pure _)
        fun _ => avoids_bind (inoOf_avoids p) fun _ => avoids_bind (avoids_deref (by decide) _)
        fun _ => avoids_bind (avoids_deref (by decide) _) fun _ => avoids_pure _
  · cases res.2.2 with
    | none => exact avoids_pure _
    | some q => exact rele q

section Walk

/-- The walk over the text of a link ends. -/
def Followed (I : Sys D → Prop) (follow : Option (Follow D)) : Prop :=
  ∀ walk, follow = some walk → ∀ p nd s, Ready I s → Ends (walk p nd) s fun _ => Ready I

include d

theorem followLink_ends {follow : Option (Follow D)} (hf : Followed I follow) (nd : Nameidata)
    (last : Bool) (cur : Pno) (i : InoId) {s : Sys D} (h : Ready I s) :
    Ends (followLink e follow nd last cur i) s fun _ => Ready I := by
  cases follow with
  | none => exact spares_pure h
  | some walk =>
    exact spares_bind <| spares_mono (malloc_ends d h) fun ok u _ hu => spares_ite
      (fun _ => spares_pure hu) fun _ => spares_bind <| spares_mono (readlink_ends d i cur 4096 hu)
      fun text v _ hv => spares_ite (fun _ => spares_pure hv) fun _ => spares_bind <|
      pnodeAt_ends <| spares_bind <| spares_mono (hf walk rfl _ _ v hv) fun res w _ hw =>
      spares_ite (fun _ => spares_pure hw) fun _ => spares_bind <| spares_mono
      (pRele_ends d cur hw) fun _ x _ hx => spares_bind <| nonNull_ends fun _ _ => spares_pure hx.1

theorem walkLoop_ends {follow : Option (Follow D)} (hf : Followed I follow) (nd : Nameidata)
    (comps : List Component) (path : Option Bytes) (cur : Pno) {s : Sys D} (h : Ready I s) :
    Ends (walkLoop e follow nd comps path cur) s fun _ => Ready I := by
  have link : ∀ {c : Prop} [Decidable c] last i, Ends (if c then followLink e follow nd last cur i
      else pure (0, cur)) s fun _ => Ready I := fun last i =>
    spares_ite (fun _ => followLink_ends d hf nd last cur i h) fun _ => spares_pure h
  induction comps generalizing path cur s with
  | nil =>
    unfold walkLoop
    exact spares_bind <| inoOf_ends fun _ _ => spares_bind <| nonNull_ends fun i _ => spares_bind <|
      inodeAt_ends fun r _ => spares_bind <| spares_mono (link _ i) fun res u _ hu => spares_ite
      (fun _ => walkExit_ends d _ _ _ hu) fun _ => walkExit_ends d _ _ _ hu
  | cons this rest ih =>
    unfold walkLoop
    refine spares_bind <| inoOf_ends fun _ _ => spares_bind <| nonNull_ends fun i _ =>
      spares_bind <| inodeAt_ends fun r _ => spares_bind <| spares_mono (link _ i)
      fun res u _ hu => spares_ite (fun _ => walkExit_ends d _ _ _ hu) fun _ => spares_bind <|
      inoOf_ends fun rb _ => ?_
    cases rb.ino with
    | none => exact walkExit_ends d _ _ _ hu
    | some i =>
      refine spares_bind <| inodeAt_ends fun r _ => spares_ite (fun _ => walkExit_ends d _ _ _ hu)
        fun _ => spares_bind <| spares_mono (lookup_ends d _ _ _ _ _ hu) fun res v _ hv =>
        spares_ite (fun _ => spares_ite (fun _ => walkExit_ends d _ _ _ hv) fun _ =>
        walkExit_ends d _ _ _ hv) fun _ => spares_bind <| nonNull_ends fun p _ => spares_bind <|
        pnodeAt_ends <| spares_bind <| pnodeAt_ends <| spares_bind <| mountAt_ends fun mc _ =>
        spares_bind <| mountAt_ends fun mp _ => spares_bind <| spares_mono (pRele_ends d _ hv)
        fun _ w _ hw => ih _ p hw.1 fun last i => ?_
      exact spares_ite (fun _ => followLink_ends d hf nd last p i hw.1) fun _ => spares_pure hw.1

theorem walkFrom_ends {follow : Option (Follow D)} (hf : Followed I follow) (parent : Option Pno)
    (nd : Nameidata) {s : Sys D} (h : Ready I s) :
    Ends (walkFrom e follow parent nd) s fun _ => Ready I := by
  unfold walkFrom
  split
  · exact spares_pure h
  · exact spares_pure h
  · exact spares_bind <| nonNull_ends fun start _ => spares_bind <| spares_mono
      (sysioPValidate_ends d start none none h) fun err u _ hu => spares_ite
      (fun _ => spares_pure hu) fun _ => spares_bind <| spares_mono (pRef_ends d start hu)
      fun _ v _ hv => walkLoop_ends d hf nd _ _ start hv.1

theorem walkBudget_ends (budget : ℕ) (parent : Option Pno) (nd : Nameidata) {s : Sys D}
    (h : Ready I s) : Ends (walkBudget e budget parent nd) s fun _ => Ready I := by
  induction budget generalizing parent nd s with
  | zero => exact walkFrom_ends d (fun walk hw => by cases hw) parent nd h
  | succ budget ih =>
    refine walkFrom_ends d (fun walk hw p nd u hu => ?_) parent nd h
    obtain rfl := Option.some.inj hw
    exact ih (some p) nd hu

end Walk

end WalkEnds
