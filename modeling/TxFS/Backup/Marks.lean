import TxFS.Backup.Traversal

/-!
# Marks over Several Backups

`online_bck` reads `read_indicate` off the root, as the mark that the root does not have yet,
but `mark_as_read` does not write `read_indicate`: it flips the mark of the file it is called
for. A file that is created between two backups has no mark. The part of `delayed_creat` that
would have given it the mark of its transaction is commented out.

So the mark of a file counts the backups since the file was created, and the mark of the root
counts all of them.
-/

namespace TxFS

namespace OnlineBck

/-- `if (path_buf.st_mode & S_ISVTX) read_indicate = 0; else read_indicate = 1;`, for the
    root. -/
def readIndicate (marks : FilePath → Bool) : Bool := !marks []

/-! ## Histories -/

/-- A complete backup, or a committed creation of the file `n` in the directory at `p`, which
    `readdir` then returns behind the first `i` entries. -/
inductive Change where
  | backup
  | creat (p : FilePath) (i : Nat) (n : FileName)
  deriving DecidableEq

/-- The tree and the sticky bits. -/
structure Disk where
  tree : FileTree
  marks : FilePath → Bool

/-- The disk after some changes, the latest one first. -/
inductive History (root : List Char) (t : FileTree) : List Change → Disk → Prop where
  | fresh : History root t [] { tree := t, marks := fun _ => false }
  | backup {cs : List Change} {d : Disk} {n : Nat} {b : OnlineBck} :
      History root t cs d →
      onlineBck root d.tree d.marks n = some (.finished b) →
      History root t (.backup :: cs) { d with marks := b.marks }
  | creat {cs : List Change} {d : Disk} {p : FilePath} {i : Nat} {n : FileName}
      {es : List (FileName × FileTree)} :
      History root t cs d →
      d.tree.lookup p = some (.node es) → n ∉ es.map Prod.fst →
      History root t (.creat p i n :: cs)
        { tree := d.tree.insertLeaf p i n
          -- `delayed_creat` leaves the mode as `tr_sync_file_to_disk` made it
          marks := Function.update d.marks (p ++ [n]) false }

/-- The number of backups. -/
def backups (cs : List Change) : Nat := cs.count .backup

/-- The number of backups before the file was created, 0 for a file of the first tree. -/
def bornAfter : List Change → FilePath → Nat
  | [], _ => 0
  | .backup :: cs, q => bornAfter cs q
  | .creat p _ n :: cs, q => if q = p ++ [n] then backups cs else bornAfter cs q

variable {root : List Char} {t : FileTree} {cs : List Change} {d : Disk} {b b' : OnlineBck}
  {marks : FilePath → Bool} {n n' : Nat} {p : FilePath} {ps : List FilePath}

/-- The root is in the first tree. -/
theorem bornAfter_root : bornAfter cs [] = 0 := by
  induction cs with
  | nil => rfl
  | cons c cs ih =>
    cases c with
    | backup => exact ih
    | creat p i n =>
      have hne : ([] : FilePath) ≠ p ++ [n] := by simp
      rw [bornAfter, if_neg hne]
      exact ih

/-! ## One backup -/

/-- A file that is marked once has the other mark behind it. -/
theorem foldl_markAsRead (hps : ps.Nodup) :
    ps.foldl markAsRead marks p = if p ∈ ps then !marks p else marks p := by
  induction ps generalizing marks with
  | nil => rfl
  | cons q ps ih =>
    rw [List.nodup_cons] at hps
    rw [List.foldl_cons, ih hps.2]
    by_cases hpq : p = q
    · subst hpq
      rw [if_neg hps.1, if_pos (List.mem_cons_self ..)]
      exact Function.update_self ..
    · have hsame : markAsRead marks q p = marks p := Function.update_of_ne hpq ..
      rw [hsame]
      simp [hpq]

/-- More rounds do not change how a backup has ended. -/
theorem onlineBck_mono {k : Nat} {r : Ending} (h : onlineBck root t marks n = some r) :
    onlineBck root t marks (n + k) = some r := by
  unfold onlineBck at h ⊢
  cases hpush : push root [] [] with
  | none =>
    rw [hpush] at h
    exact h
  | some stack =>
    rw [hpush] at h
    exact loop_mono h

/-- **A complete backup** has copied and marked the files of the walk. -/
theorem onlineBck_finished (hd : t.Distinct)
    (h : onlineBck root t marks n = some (.finished b)) :
    b.copied = t.walk isPushed [] ∧ b.marks = (t.walk isPushed []).foldl markAsRead marks := by
  have hfits : Fits root t := by
    by_contra hnot
    exact (onlineBck_ending hd).2 hnot n b h
  obtain ⟨m, hm⟩ := (onlineBck_ending hd).1 hfits
  -- both runs have ended after `n + m` rounds
  have h' := onlineBck_mono (k := m) h
  have hm' := onlineBck_mono (k := n) hm
  rw [Nat.add_comm, h'] at hm'
  cases hm'
  exact ⟨rfl, rfl⟩

theorem mem_walk_root (hd : t.Distinct) : p ∈ t.walk isPushed [] ↔ t.Shown isPushed p := by
  rw [NamedTree.mem_walk hd]
  simp

theorem shown_root : t.Shown isPushed [] := by
  refine ⟨?_, by simp⟩
  cases t <;> rfl

/-! ## The marks count the backups -/

/-- **The invariant**: the mark of a file is the parity of the backups since it was created. -/
structure Counting (cs : List Change) (d : Disk) : Prop where
  distinct : d.tree.Distinct
  mark : ∀ p, d.tree.Shown isPushed p →
    d.marks p = decide ((backups cs + bornAfter cs p) % 2 = 1)

/-- A file that has a mark of this kind has the other one after one more backup. -/
theorem not_decide_odd (m : Nat) : (!decide (m % 2 = 1)) = decide ((m + 1) % 2 = 1) := by
  rcases Nat.mod_two_eq_zero_or_one m with h | h <;> simp [Nat.add_mod, h]

theorem counting_of_history (hd : t.Distinct) (h : History root t cs d) : Counting cs d := by
  induction h with
  | fresh => exact ⟨hd, fun p _ => rfl⟩
  | @backup cs d n b _ hrun ih =>
    refine ⟨ih.distinct, fun p hp => ?_⟩
    have hmem : p ∈ d.tree.walk isPushed [] := (mem_walk_root ih.distinct).mpr hp
    have hmark : b.marks p = !d.marks p := by
      rw [(onlineBck_finished ih.distinct hrun).2, foldl_markAsRead (NamedTree.nodup_walk ih.distinct),
        if_pos hmem]
    have hcount : backups (.backup :: cs) + bornAfter (.backup :: cs) p =
        backups cs + bornAfter cs p + 1 := by
      rw [backups, List.count_cons_self, bornAfter, backups]
      omega
    calc b.marks p = !decide ((backups cs + bornAfter cs p) % 2 = 1) := by rw [hmark, ih.mark p hp]
      _ = decide ((backups cs + bornAfter cs p + 1) % 2 = 1) := not_decide_odd _
      _ = decide ((backups (.backup :: cs) + bornAfter (.backup :: cs) p) % 2 = 1) := by rw [hcount]
  | @creat cs d q i n es _ hq hnew ih =>
    refine ⟨ih.distinct.insertLeaf hq hnew, fun p hp => ?_⟩
    have hcount : backups (.creat q i n :: cs) = backups cs := List.count_cons_of_ne (by simp)
    rw [hcount, bornAfter]
    change Function.update d.marks (q ++ [n]) false p = _
    by_cases hpq : p = q ++ [n]
    · -- the new file: both counts are the same
      have heven : (backups cs + backups cs) % 2 = 0 := by omega
      rw [if_pos hpq, hpq, Function.update_self, heven]
      rfl
    · have hold := (NamedTree.shown_insertLeaf hq hnew hp).resolve_right hpq
      rw [Function.update_of_ne hpq, if_neg hpq]
      exact ih.mark p hold

/-- **Uniform marks**: a complete backup leaves the mark `read_indicate` on everything it
    reached exactly if each of these files was created after an even number of backups. -/
theorem marks_uniform_iff (hd : t.Distinct) (h : History root t cs d)
    (hrun : onlineBck root d.tree d.marks n = some (.finished b)) :
    (∀ p ∈ b.copied, b.marks p = readIndicate d.marks) ↔
      ∀ p, d.tree.Shown isPushed p → bornAfter cs p % 2 = 0 := by
  have hcounting := counting_of_history hd h
  obtain ⟨hcopied, hmarks⟩ := onlineBck_finished hcounting.distinct hrun
  have hroot : d.marks [] = decide (backups cs % 2 = 1) := by
    rw [hcounting.mark [] shown_root, bornAfter_root, Nat.add_zero]
  have hone : ∀ p, d.tree.Shown isPushed p →
      (b.marks p = readIndicate d.marks ↔ bornAfter cs p % 2 = 0) := by
    intro p hp
    have hmem : p ∈ d.tree.walk isPushed [] := (mem_walk_root hcounting.distinct).mpr hp
    rw [hmarks, foldl_markAsRead (NamedTree.nodup_walk hcounting.distinct), if_pos hmem,
      readIndicate, hroot, hcounting.mark p hp, Bool.not_inj_iff, decide_eq_decide]
    omega
  constructor
  · intro huniform p hp
    have hmem : p ∈ b.copied := by
      rw [hcopied]
      exact (mem_walk_root hcounting.distinct).mpr hp
    exact (hone p hp).mp (huniform p hmem)
  · intro heven p hp
    have hshown : d.tree.Shown isPushed p := by
      rw [hcopied] at hp
      exact (mem_walk_root hcounting.distinct).mp hp
    exact (hone p hshown).mpr (heven p hshown)

/-- An empty tree is backed up twice, and then a file is created. -/
theorem marks_uniform_second :
    ∃ d n b, History ['/', 'r'] (.node []) [.creat [] 0 ['f'], .backup, .backup] d ∧
      onlineBck ['/', 'r'] d.tree d.marks n = some (.finished b) ∧
      ((∀ p ∈ b.copied, b.marks p = readIndicate d.marks) ↔
        ∀ p, d.tree.Shown isPushed p →
          bornAfter [.creat [] 0 ['f'], .backup, .backup] p % 2 = 0) := by
  let once := markAsRead (fun _ => false) []
  let twice := markAsRead once []
  have hd : NamedTree.Distinct (.node [] : FileTree) :=
    NamedTree.distinct_node List.nodup_nil (by simp)
  have hfirst : onlineBck ['/', 'r'] (.node []) (fun _ => false) 2 =
      some (.finished { stack := [], marks := once, copied := [[]] }) := rfl
  have hsecond : onlineBck ['/', 'r'] (.node []) once 2 =
      some (.finished { stack := [], marks := twice, copied := [[]] }) := rfl
  have hthird : onlineBck ['/', 'r'] (.node [(['f'], .leaf)]) (Function.update twice [['f']] false) 3 =
      some (.finished
        { stack := []
          marks := markAsRead (markAsRead (Function.update twice [['f']] false) []) [['f']]
          copied := [[], [['f']]] }) := rfl
  have hhistory : History ['/', 'r'] (.node []) [.creat [] 0 ['f'], .backup, .backup]
      { tree := .node [(['f'], .leaf)], marks := Function.update twice [['f']] false } :=
    ((History.fresh.backup hfirst).backup hsecond).creat rfl (by simp)
  exact ⟨_, 3, _, hhistory, hthird, marks_uniform_iff hd hhistory hthird⟩

/-- The second backup sets the mark of a file that was created behind the first one, and
    resets the mark of the root. -/
theorem marks_differ_second :
    ∃ d n b, History ['/', 'r'] (.node []) [.creat [] 0 ['f'], .backup] d ∧
      onlineBck ['/', 'r'] d.tree d.marks n = some (.finished b) ∧
      [['f']] ∈ b.copied ∧ b.marks [['f']] ≠ readIndicate d.marks := by
  let once := markAsRead (fun _ => false) []
  have hfirst : onlineBck ['/', 'r'] (.node []) (fun _ => false) 2 =
      some (.finished { stack := [], marks := once, copied := [[]] }) := rfl
  have hsecond : onlineBck ['/', 'r'] (.node [(['f'], .leaf)]) (Function.update once [['f']] false) 3 =
      some (.finished
        { stack := []
          marks := markAsRead (markAsRead (Function.update once [['f']] false) []) [['f']]
          copied := [[], [['f']]] }) := rfl
  have hhistory : History ['/', 'r'] (.node []) [.creat [] 0 ['f'], .backup]
      { tree := .node [(['f'], .leaf)], marks := Function.update once [['f']] false } :=
    (History.fresh.backup hfirst).creat rfl (by simp)
  exact ⟨_, 3, _, hhistory, hsecond, by simp, by decide⟩

end OnlineBck

end TxFS
