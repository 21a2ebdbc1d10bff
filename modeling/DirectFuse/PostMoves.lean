import DirectFuse.CoreMoves
import DirectFuse.SysioSystem

/-! What the asynchronous calls do to the state, given what a post does. Besides posting they only
look up the descriptor and move vectors on and off the heap. -/
namespace PostMoves

open ExecLogic SysioState SysioFile SysioInterface SysioSystem

variable {D : Type}

structure Posts (R : Sys D → Sys D → Prop) (e : Env D) : Prop where
  malloc : Moves R (malloc e)
  nextVec : ∀ n : Sys D → ℕ,
    Moves R (Exec.write fun s => { s with aio.nextVec := n s } : Sysio D Unit)
  frees : ∀ g : Sys D → VecId → ℕ,
    Moves R (Exec.write fun s => { s with aio.frees := g s } : Sysio D Unit)
  iiox : ∀ wr f cc iov xtv cbs, Moves R (sysioIiox e wr f cc iov xtv cbs)

variable {R : Sys D → Sys D → Prop} [IsPreorder (Sys D) R] {e : Env D}

/-- A call on a descriptor looks its record up first. -/
theorem onFile_moves {α : Type} (fd : ℤ) (z : α) {k : FilId → Sysio D α} (hk : ∀ f, Moves R (k f)) :
    Moves R (do
      match ← sysioFdFind fd with
      | none => return z
      | some f => k f : Sysio D α) := by
  refine moves_bind (moves_read _) fun fil => ?_
  cases fil with
  | none => exact moves_pure _
  | some f => exact hk f

variable (p : Posts R e)

include p

theorem mallocVec_moves : Moves R (mallocVec e) :=
  moves_bind p.malloc fun _ => moves_ite (fun _ => moves_pure _) fun _ =>
    moves_bind (moves_read _) fun _ => moves_bind (p.nextVec _) fun _ => moves_pure _

theorem freeVecs_moves (l : List VecId) : Moves R (freeVecs l : Sysio D Unit) := by
  induction l with
  | nil => exact moves_pure _
  | cons v l ih => exact moves_bind (p.frees _) fun _ => ih

theorem posted_moves (u : IocId) (vecs : List VecId) {post : Sysio D (ℤ × Option IocId)}
    (hpost : Moves R post) : Moves R (posted u vecs post) :=
  moves_bind hpost fun _ => moves_ite (fun _ => moves_bind (freeVecs_moves p _) fun _ =>
    moves_pure _) fun _ => moves_pure _

theorem sysioIiov_moves (wr : Bool) (f : FilId) (lens : List ℕ) (cc : ℤ) (iov xtv : Option VecId)
    (cbs : List Callback) : Moves R (sysioIiov e wr f lens cc iov xtv cbs) :=
  moves_ite (fun _ => moves_pure _) fun _ => p.iiox _ _ _ _ _ _

theorem sysioIpiov_moves (wr : Bool) (f : FilId) (lens : List ℕ) (cc : ℤ) (iov xtv : Option VecId)
    (cbs : List Callback) : Moves R (sysioIpiov e wr f lens cc iov xtv cbs) :=
  moves_ite (fun _ => moves_pure _) fun _ => p.iiox _ _ _ _ _ _

/-- A call that puts its extents on the heap. -/
theorem onExtents_moves (u : IocId) {post : VecId → Sysio D (ℤ × Option IocId)}
    (hpost : ∀ xtv, Moves R (post xtv)) :
    Moves R (do
      match ← mallocVec e with
      | none => return (none, -ENOMEM)
      | some xtv => posted u [xtv] (post xtv) : Sysio D (Option IocId × ℤ)) := by
  refine moves_bind (mallocVec_moves p) fun made => ?_
  cases made with
  | none => exact moves_pure _
  | some xtv => exact posted_moves p u _ (hpost xtv)

theorem interfaceIread_moves (u : IocId) (wr : Bool) (fd : ℤ) (count : ℕ) (cc : ℤ) :
    Moves R (interfaceIread e u wr fd count cc) := by
  refine onFile_moves fd _ fun f => moves_bind (mallocVec_moves p) fun iov => ?_
  cases iov with
  | none => exact moves_pure _
  | some iov =>
    refine moves_bind (mallocVec_moves p) fun xtv => ?_
    cases xtv with
    | none => exact moves_bind (p.frees _) fun _ => moves_pure _
    | some xtv => exact posted_moves p u _ (sysioIiov_moves p _ _ _ _ _ _ _)

theorem interfaceIpread_moves (u : IocId) (wr : Bool) (fd : ℤ) (count : ℕ) (cc : ℤ) :
    Moves R (interfaceIpread e u wr fd count cc) := by
  refine onFile_moves fd _ fun f => moves_bind (mallocVec_moves p) fun xtv =>
    moves_bind (mallocVec_moves p) fun iov => ?_
  have fails : Moves R (do
      freeVecs (iov.toList ++ xtv.toList)
      return (none, -ENOMEM) : Sysio D (Option IocId × ℤ)) :=
    moves_bind (freeVecs_moves p _) fun _ => moves_pure _
  cases xtv with
  | none => exact fails
  | some xtv =>
    cases iov with
    | none => exact fails
    | some iov => exact posted_moves p u _ (sysioIpiov_moves p _ _ _ _ _ _ _)

/-- The asynchronous calls. -/
def isPost : Call → Bool
  | .iread _ _ _ _ _ | .ireadv _ _ _ _ _ | .ipread _ _ _ _ _ | .ipreadv _ _ _ _ _
  | .ireadx _ _ _ _ _ _ | .iread64x _ _ _ _ _ | .iwrite64x _ _ _ _ => true
  | _ => false

theorem post_moves {fssw : Bytes → Option (SysioMount.FsswopMount D)} (call : Call)
    (hcall : isPost call = true) : Moves R (step ⟨e, fssw⟩ call) := by
  have named : ∀ {m : Sysio D (Option IocId × ℤ)}, Moves R m → Moves R (do return ioid (← m)) :=
    fun hm => moves_bind hm fun _ => moves_pure _
  cases call with
  | iread u wr fd count cc => exact named (interfaceIread_moves p u wr fd count cc)
  | ireadv u wr fd lens cc =>
    exact named (onFile_moves fd _ fun f => onExtents_moves p u fun _ => sysioIiov_moves p _ _ _ _ _ _ _)
  | ipread u wr fd count cc => exact named (interfaceIpread_moves p u wr fd count cc)
  | ipreadv u wr fd lens cc =>
    exact named (onFile_moves fd _ fun f => onExtents_moves p u fun _ => sysioIpiov_moves p _ _ _ _ _ _ _)
  | ireadx u wr fd iovs xtvs cc =>
    exact named (onFile_moves fd _ fun f => moves_ite (fun _ => moves_pure _) fun _ =>
      onExtents_moves p u fun _ => p.iiox _ _ _ _ _ _)
  | iread64x u fd iovs xtvs cc =>
    exact named (onFile_moves fd _ fun f => moves_ite (fun _ => moves_pure _) fun _ =>
      posted_moves p u _ (p.iiox _ _ _ _ _ _))
  | iwrite64x u fd xtvs cc =>
    exact named (onFile_moves fd _ fun f => moves_ite (fun _ => moves_pure _) fun _ =>
      posted_moves p u _ (p.iiox _ _ _ _ _ _))
  | open_ | close | unlink | rmdir | mkdir | stat | lstat | access | readlink | chmod | chown | utime
  | symlink | mknod | link | rename | chdir | mount | umount | dup | dup2 | read | write | pread
  | pwrite | ftruncate | fsync | fdatasync | fstat | fchmod | fchown | lseek | iodone | iowait =>
    cases hcall

end PostMoves
