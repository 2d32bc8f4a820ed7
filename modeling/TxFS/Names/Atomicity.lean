import TxFS.Names.Volume

/-!
# Abort and the Names

`release_locks_on_abort` frees the write records of the transaction, so no rename and no unlink
of it is ever performed. A file that `on_creat` has made stays: nothing removes it. The names
after an abort are as without the transaction if no creation of the transaction took effect.
-/

namespace TxFS

open GuardedRun

namespace Watched

variable {ν : Type} {fs : FileSystems ν} {w w' : Watched ν} {t x : Int} {e : Event}
  {path mode : String}

/-! ## Steps -/

/-- A step of the server, which may settle the run of the transaction. -/
theorem step_server (h : w.step fs t (.server e) = some w') :
    w.server.step e = some w'.server ∧
      w'.names = (w.server.actsOf e).foldl fs.perform w.names ∧
      ((e = .begin t ∨ e = .commit t) ∧ w'.without = w'.names ∨
        ¬ (e = .begin t ∨ e = .commit t) ∧ w'.created = w.created ∧
          w'.without = ((w.server.actsOf e).filter fun act => ¬ w.server.Replays t act).foldl
            fs.perform w.without) := by
  simp only [step, Volume.step, Option.bind_eq_bind, Option.bind_eq_some_iff] at h
  obtain ⟨v, hv, h⟩ := h
  split at hv
  · simp only [Option.bind_eq_some_iff, Option.some.injEq] at hv
    obtain ⟨server, hserver, rfl⟩ := hv
    split at h
    · rename_i hsettled
      cases h
      exact ⟨hserver, rfl, .inl ⟨hsettled, rfl⟩⟩
    · rename_i hsettled
      cases h
      exact ⟨hserver, rfl, .inr ⟨hsettled, rfl, rfl⟩⟩
  · cases hv

/-- The creation of a file, by the transaction or by another one. -/
theorem step_create (h : w.step fs t (.create x) = some w') :
    ∃ path mode, w.creating x = some (path, mode) ∧ w'.server = w.server ∧
      w'.names = fs.trExtCreat w.names path mode ∧
      (x = t ∧ w'.without = w.without ∧ w'.created = (w.created || fs.TakesEffect w.names path) ∨
        x ≠ t ∧ w'.without = fs.trExtCreat w.without path mode ∧ w'.created = w.created) := by
  simp only [step, Volume.step, Option.bind_eq_bind, Option.bind_eq_some_iff] at h
  obtain ⟨v, ⟨⟨path, mode⟩, hcreating, hv⟩, ⟨_, _⟩, hcreating', h⟩ := h
  cases hcreating.symm.trans hcreating'
  cases hv
  refine ⟨path, mode, hcreating, ?_⟩
  split at h
  · rename_i hx
    cases h
    exact ⟨rfl, rfl, .inl ⟨hx, rfl, rfl⟩⟩
  · rename_i hx
    cases h
    exact ⟨rfl, rfl, .inr ⟨hx, rfl, rfl⟩⟩

/-! ## The invariant -/

/-- Until a creation of the transaction takes effect, the names are those without it. -/
structure Matches (w : Watched ν) : Prop where
  logged : w.server.Logged
  names : w.created = false → w.names = w.without

theorem matches_start {handles : Nat} {names : ν} : Matches (start handles names) where
  logged := Server.logged_globalInit
  names := fun _ => rfl

theorem matches_step {e : VolumeEvent} (h : Matches w) (hstep : w.step fs t e = some w') :
    Matches w' := by
  cases e with
  | server e =>
    obtain ⟨hserver, hnames, hrest⟩ := step_server hstep
    refine ⟨Server.logged_step h.logged hserver, fun hcreated => ?_⟩
    rcases hrest with ⟨-, hwithout⟩ | ⟨hsettled, hkeep, hwithout⟩
    · exact hwithout.symm
    · -- what the step performs was not logged by the transaction
      have hothers : (w.server.actsOf e).filter (fun act => ¬ w.server.Replays t act) =
          w.server.actsOf e := by
        apply List.filter_eq_self.mpr
        intro act hact
        exact decide_eq_true (h.logged.not_replays (fun he => hsettled (.inr he)) act hact)
      rw [hnames, hwithout, hothers, h.names (hkeep.symm.trans hcreated)]
  | create x =>
    obtain ⟨path, mode, -, hserver, hnames, hrest⟩ := step_create hstep
    refine ⟨hserver ▸ h.logged, fun hcreated => ?_⟩
    rcases hrest with ⟨-, hwithout, hcreated'⟩ | ⟨-, hwithout, hcreated'⟩
    · rw [hcreated', Bool.or_eq_false_iff, decide_eq_false_iff_not] at hcreated
      rw [hnames, hwithout, fs.trExtCreat_eq hcreated.2]
      exact h.names hcreated.1
    · rw [hnames, hwithout, h.names (hcreated'.symm.trans hcreated)]

theorem matches_of_reachable {handles : Nat} {names : ν}
    (h : Reachable (start handles names) (step fs t) w) : Matches w :=
  h.invariant matches_start fun _ _ _ _ hw _ hstep => matches_step hw hstep

/-! ## Aborts -/

/-- An abort changes no names, and so it takes nothing back. -/
theorem abort_names (hw : Matches w) (h : w.step fs t (.server (.abort t)) = some w') :
    w'.names = w.names ∧ w'.without = w.without := by
  obtain ⟨-, hnames, hrest⟩ := step_server h
  have hacts := hw.logged.abort_callLRN (t := t)
  rcases hrest with ⟨hsettled, -⟩ | ⟨-, -, hwithout⟩
  · rcases hsettled with hsettled | hsettled <;> cases hsettled
  · refine ⟨hnames.trans (fs.foldl_perform_eq hacts), hwithout.trans ?_⟩
    exact fs.foldl_perform_eq fun act hact => hacts act (List.mem_of_mem_filter hact)

/-- **Abort atomicity**: if no creation of the transaction has taken effect, then the names after
    its abort are those without it. -/
theorem abort_atomic {handles : Nat} {names : ν}
    (h : Reachable (start handles names) (step fs t) w)
    (habort : w.step fs t (.server (.abort t)) = some w') (hcreated : w.created = false) :
    fs.existing w'.names = fs.existing w'.without := by
  have hw := matches_of_reachable h
  obtain ⟨hnames, hwithout⟩ := abort_names hw habort
  rw [hnames, hwithout, hw.names hcreated]

/-- **What an abort leaves behind**: a file that the transaction has made before it aborts. -/
theorem abort_leaves_file {handles : Nat} {names : ν} {w₁ : Watched ν}
    (h : Reachable (start handles names) (step fs t) w) (hcreated : w.created = false)
    (hcreating : w.creating t = some (path, mode)) (heffect : fs.TakesEffect w.names path)
    (hcreate : w.step fs t (.create t) = some w₁)
    (habort : w₁.step fs t (.server (.abort t)) = some w') :
    fs.existing w'.names ≠ fs.existing w'.without := by
  have hw := matches_of_reachable h
  obtain ⟨hnames, hwithout⟩ := abort_names (matches_step hw hcreate) habort
  obtain ⟨_, _, hcreating', -, hnames₁, hrest⟩ := step_create hcreate
  cases hcreating.symm.trans hcreating'
  rcases hrest with ⟨-, hwithout₁, -⟩ | ⟨ht, -⟩
  · rw [hnames, hnames₁, hwithout, hwithout₁, ← hw.names hcreated]
    exact heffect.existing_ne
  · exact absurd rfl ht

/-! ## Runs -/

/-- File systems with all names in one list and all directories present. -/
def listed : FileSystems (List String) where
  pathExists names path := path ∈ names
  directoryFound _ _ := true
  rename names oldpath newpath :=
    if oldpath ∈ names then newpath :: names.filter fun p => p ≠ oldpath ∧ p ≠ newpath else names
  unlink names path := names.filter fun p => p ≠ path
  syncFile names _ := names
  createFile names path _ := if path ∈ names then names else path :: names
  createFile_old names path mode h := if_pos (of_decide_eq_true h)
  createFile_new names path mode _ := by
    apply decide_eq_true
    split
    · assumption
    · exact List.mem_cons_self ..

/-- The transaction creates a file that is there, logs a rename and an unlink, and aborts after
    another one has unlinked and created files. -/
theorem abort_atomic_interleaved :
    ∃ w, Reachable (start 1 ["/a", "/b/x", "/c"]) (step listed 1) w ∧
      ∃ w', w.step listed 1 (.server (.abort 1)) = some w' ∧ w'.names = ["/b/y", "/a", "/b/x"] ∧
        listed.existing w'.names = listed.existing w'.without := by
  obtain ⟨w, hw, hcreated, hnames⟩ := exists_of_run (start 1 ["/a", "/b/x", "/c"])
    (step listed 1)
    (fun w => w.created = false ∧ (w.step listed 1 (.server (.abort 1))).any
      (fun w' => w'.names = ["/b/y", "/a", "/b/x"]) = true)
    [.server (.begin 1), .server (.begin 2),
      .server (.lock 1 ⟨5, 2, .placeholder⟩ 0), .server (.call 1 (.creat "/a" "256") 0 none),
      .server (.lock 2 ⟨6, 2, .placeholder⟩ 0), .create 1,
      .server (.call 1 (.rename "/a" "/d") 0 none), .server (.call 2 (.unlink "/c") 1 none),
      .server (.call 2 (.creat "/b/y" "256") 1 none), .create 2,
      .server (.call 1 (.unlink "/a") 0 none), .server (.commit 2)]
    (by decide +kernel)
  obtain ⟨w', habort, hnames⟩ := (Option.any_eq_true ..).mp hnames
  exact ⟨w, hw, w', habort, of_decide_eq_true hnames, abort_atomic hw habort hcreated⟩

/-- **A file that stays**: one `creat`, and the abort does not take it back. -/
theorem abort_not_atomic :
    ¬ ∀ w w', Reachable (start 1 ["/a"]) (step listed 1) w →
      w.step listed 1 (.server (.abort 1)) = some w' →
      listed.existing w'.names = listed.existing w'.without := by
  intro h
  -- the state in which `on_creat` has logged the call
  obtain ⟨w, hw, hcreated, hcreating, heffect, habort⟩ := exists_of_run (start 1 ["/a"])
    (step listed 1)
    (fun w => w.created = false ∧ w.creating 1 = some ("/b", "256") ∧
      listed.TakesEffect w.names "/b" ∧ ((w.step listed 1 (.create 1)).any fun w₁ =>
        (w₁.step listed 1 (.server (.abort 1))).isSome) = true)
    [.server (.begin 1), .server (.lock 1 ⟨5, 2, .placeholder⟩ 0),
      .server (.call 1 (.creat "/b" "256") 0 none)]
    (by decide +kernel)
  obtain ⟨w₁, hcreate, habort⟩ := (Option.any_eq_true ..).mp habort
  obtain ⟨w', habort⟩ := Option.isSome_iff_exists.mp habort
  exact abort_leaves_file hw hcreated hcreating heffect hcreate habort
    (h w₁ w' (.step hw trivial hcreate) habort)

end Watched

end TxFS
