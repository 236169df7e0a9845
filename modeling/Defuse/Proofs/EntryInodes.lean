import Defuse.Proofs.ModuleRuns

/-! The inodes of entries. `defuse_inode_eq` compares the names of two entries but not their
directories, so that entries with one name share an inode. While no such entry is looked up or
made next to another, every entry has an inode of its own and is resolved at its own path. -/

namespace Defuse.WrapModule

open CSem Proc

section Paths

/-! The mounted trees, the backend directory of each superblock and the paths of backend dentries. -/
variable (tree : Dcache) (base : ℕ → List Seg) (bpath : ℕ → List Seg)

/-- The path of a dentry in the tree of the backend; for an entry the one it stands for. -/
def place : Dentry → List Seg
  | .proxy d => base (tree.sb d) ++ tree.path d
  | .backend d => bpath d

/-- `lookup_one_len` returns the dentry with the name in the directory, and refuses a slash. -/
def KernelFinds (k : Kernel) : Prop :=
  ∀ dir name found, k.lookupOneLen dir name = some found →
    name ≠ [slash] ∧ place tree base bpath found = place tree base bpath dir ++ [name]

def EntryCall.Documented : EntryCall → Prop
  | .mount _ data => ∀ d, data.kernPath = .ok d → bpath d = base (tree.sb data.root)
  | .lookup k _ _ _ | .create k _ _ => KernelFinds tree base bpath k

/-- Entries with the same inode have the same directory and name, and every backend dentry is
resolved at the path of its entry. -/
structure OwnInodes (m : State) : Prop where
  entries : ∀ d d' i, m.inodeOf d = some i → m.inodeOf d' = some i →
    tree.parent d = tree.parent d' ∧ tree.name d = tree.name d'
  inode : ∀ k, KernelFinds tree base bpath k → ∀ d i, m.inodeOf d = some i →
    (getBDentryResolved k (some i)).Ends m fun r _ =>
      ∀ b, r = .ok b → place tree base bpath b.dentry = base (tree.sb d) ++ tree.path d
  entry : ∀ k, KernelFinds tree base bpath k → ∀ d,
    (resolveDentry k (some d)).Ends m fun r _ =>
      ∀ b, r = .ok (some b) → place tree base bpath b.dentry = base (tree.sb d) ++ tree.path d

/-- A live inode of the superblock whose entry has the name of `entry` is for its directory. -/
def sameDirectory (m : State) (dir entry i : ℕ) : Bool :=
  (m.inodes i).sb ≠ (m.inodes dir).sb ||
    match (m.inodes i).pDentry with
    | none => true
    | some p => m.dcache.name p ≠ m.dcache.name entry || m.dcache.parent p = m.dcache.parent entry

/-- No inode is asked for while another directory has a live one for an entry of the same name. -/
def EntryCall.apart (m : State) (call : EntryCall) : Bool :=
  match call.asks m with
  | none => true
  | some (dir, entry) => m.chain.all (sameDirectory m dir entry)

/-! The own path of an entry as its place -/

theorem Dcache.path_eq {t : Dcache} {d d' : ℕ} (hparent : t.parent d = t.parent d')
    (hname : t.name d = t.name d') : t.path d = t.path d' := by
  by_cases hd : t.path d = []
  · obtain ⟨hd₁, hd₂⟩ := t.of_root d hd
    have hd' : t.path d' = [] := by
      by_contra hne
      exact (t.of_child d' hne).2 (hname.symm.trans hd₂)
    rw [hd, hd']
  · have hd' : t.path d' ≠ [] := by
      intro hroot
      exact (t.of_child d hd).2 (hname.trans (t.of_root d' hroot).2)
    rw [(t.of_child d hd).1, (t.of_child d' hd').1, hparent, hname]

def ownPath : Placement where
  Tree t := t = tree
  Same d d' := tree.parent d = tree.parent d' ∧ tree.name d = tree.name d'
  At d b := place tree base bpath b.dentry = base (tree.sb d) ++ tree.path d
  same :=
    { refl := fun _ => ⟨rfl, rfl⟩
      symm := fun h => ⟨h.1.symm, h.2.symm⟩
      trans := fun h h' => ⟨h.1.trans h'.1, h.2.trans h'.2⟩ }
  at_same := by
    intro d d' b h hat
    rw [hat, Dcache.path_eq h.1 h.2, ← tree.sb_parent d, h.1, tree.sb_parent d']
  at_self := fun _ => rfl

variable {tree base bpath} {m : State} {k : Kernel}

theorem KernelFinds.finds (h : KernelFinds tree base bpath k) :
    (ownPath tree base bpath).Finds k := by
  intro t ht entry bParent d r hat hfound
  cases ht
  obtain ⟨hslash, hplace⟩ := h bParent.dentry (tree.name entry) d hfound
  -- a root has the name that is refused
  have hchild : tree.path entry ≠ [] := fun hroot => hslash (tree.of_root entry hroot).2
  change place tree base bpath d = base (tree.sb entry) ++ tree.path entry
  change place tree base bpath bParent.dentry = _ at hat
  rw [hplace, hat, tree.sb_parent, List.append_assoc, ← (tree.of_child entry hchild).1]

theorem EntryCall.fits {call : EntryCall} (hm : m.Sound (ownPath tree base bpath))
    (hdoc : call.Documented tree base bpath) (hapart : call.apart m) :
    call.Fits (ownPath tree base bpath) m where
  apart := by
    intro dir entry hasks i hi hsb p hp hname
    rw [EntryCall.apart, hasks] at hapart
    have hi := List.all_eq_true.mp hapart i hi
    simp only [sameDirectory, hp, hsb, hname, ne_eq, not_true_eq_false, decide_false,
      Bool.false_or, decide_eq_true_eq] at hi
    rw [hm.tree] at hi hname
    exact ⟨hi, hname⟩
  placed := by
    cases call with
    | mount k data =>
      intro d hd hroot r
      rw [hm.tree] at hroot
      change bpath d = base (tree.sb data.root) ++ tree.path data.root
      rw [hroot, List.append_nil]
      exact hdoc d hd
    | lookup k entry flags moved =>
      refine ⟨hdoc.finds, ?_⟩
      intro a hsame hplace
      rw [hm.tree] at hplace
      exact absurd hsame hplace
    | create k entry what => exact KernelFinds.finds hdoc

theorem State.Sound.ownInodes (hm : m.Sound (ownPath tree base bpath)) :
    OwnInodes tree base bpath m where
  entries := by
    intro d d' i hd hd'
    obtain ⟨p, hp, hsame⟩ := hm.own _ (State.mem_of_inodeOf hd)
    obtain ⟨p', hp', hsame'⟩ := hm.own _ (State.mem_of_inodeOf hd')
    rw [hp] at hp'
    cases hp'
    exact (ownPath tree base bpath).same.trans ((ownPath tree base bpath).same.symm hsame) hsame'
  inode := by
    intro k hk d i hd
    apply (getBDentryResolved_ends hk.finds hm (some i)).mono
    intro r m₁ h b hb
    obtain ⟨p, hp, hsame⟩ := hm.own _ (State.mem_of_inodeOf hd)
    exact (ownPath tree base bpath).at_same p d b hsame (h.place b hb i p rfl hp)
  entry := by
    intro k hk d
    apply Ends.mono (resolveDentry_gives hk.finds hm d)
    intro r m₁ h b hb
    obtain ⟨found, rfl, h⟩ := h
    cases hb
    exact h.place b rfl

/-- In every run of mounts, lookups and creates that ask for no such inode, each state gives the
entries inodes of their own. -/
theorem entries_own_inodes (fullNameHash : Seg → ℕ) (calls : List EntryCall)
    (hdoc : ∀ call ∈ calls, call.Documented tree base bpath)
    (hapart : ∀ pre call, pre ++ [call] <+: calls → ∀ m,
      run (fun m call => step fullNameHash m (.named call)) (State.loaded tree) pre = .ok m →
        call.apart m) :
    ∀ pre, pre <+: calls → ∃ m,
      run (fun m call => step fullNameHash m (.named call)) (State.loaded tree) pre = .ok m ∧
        OwnInodes tree base bpath m := by
  intro pre hpre
  have hsound : ∃ m,
      run (fun m call => step fullNameHash m (.named call)) (State.loaded tree) pre = .ok m ∧
        m.Sound (ownPath tree base bpath) := by
    apply run_guarded (State.Sound (ownPath tree base bpath))
      (fun m call => call.Documented tree base bpath ∧ call.apart m)
    · intro m call hm hcall
      exact step_sound hm (.named call) (EntryCall.fits hm hcall.1 hcall.2)
    · exact loaded_sound rfl
    · intro p call hp m hrun
      have hp' := hp.trans hpre
      exact ⟨hdoc call (hp'.subset (by simp)), hapart p call hp' m hrun⟩
  obtain ⟨m, hrun, hm⟩ := hsound
  exact ⟨m, hrun, hm.ownInodes⟩

end Paths

/-! The sample tree, in front of a backend directory at the root. -/

theorem sampleKernel_finds (present : List ℕ) (vfs : ℤ) :
    KernelFinds sampleTree (fun _ => []) sampleTree.path (sampleKernel present vfs) := by
  intro dir name found hfound
  cases dir with
  | proxy d => cases hfound
  | backend p =>
    obtain ⟨d, hd, rfl⟩ := Option.map_eq_some_iff.mp hfound
    have hplace := List.find?_some hd
    have hmem := List.mem_of_find?_eq_some hd
    simp only [decide_eq_true_eq] at hplace
    obtain ⟨rfl, rfl⟩ := hplace
    have hall : ∀ d ∈ [1, 2, 3, 4], sampleTree.path d ≠ [] := by decide
    have hchild := hall d hmem
    exact ⟨(sampleTree.of_child d hchild).2, (sampleTree.of_child d hchild).1⟩

/-- A mount, and a lookup of each entry up to the given one; `/a` and `/b` are directories. -/
def sampleLookups (last : ℕ) : List EntryCall :=
  sampleMount ::
    (List.range' 1 last).map fun entry =>
      .lookup (sampleKernel [0, 1, 2, 3, 4] 0) entry ⟨entry ≤ 2, false⟩ sampleTree

def runSample (last : ℕ) : Checked State :=
  run (fun m call => step List.length m (.named call)) (State.loaded sampleTree)
    (sampleLookups last)

/-- `/a`, `/b` and `/a/x` get inodes of their own. -/
theorem entries_own_inodes_sample :
    (runSample 3).map (fun m => [m.inodeOf 1, m.inodeOf 2, m.inodeOf 3]) =
        .ok [some 1, some 2, some 3] ∧
      ∃ m, runSample 3 = .ok m ∧ OwnInodes sampleTree (fun _ => []) sampleTree.path m := by
  refine ⟨by decide +kernel, entries_own_inodes List.length (sampleLookups 3) ?_ ?_ _
    (List.prefix_refl _)⟩
  · intro call hcall
    obtain rfl | hcall := List.mem_cons.mp hcall
    · intro d hd
      cases hd
      rfl
    · obtain ⟨entry, -, rfl⟩ := List.mem_map.mp hcall
      exact sampleKernel_finds _ _
  · apply guard_of_tested fun m call => EntryCall.apart m call = true
    decide +kernel

/-- `/b/x` gets the inode of `/a/x`, and its backend dentry is resolved at `/a/x`. -/
theorem same_name_shares_inode :
    (runSample 4).map (fun m => (m.inodeOf 3, m.inodeOf 4)) = .ok (some 3, some 3) ∧
      ((runSample 4).bind fun m =>
        (getBDentryResolved (sampleKernel [0, 1, 2, 3, 4] 0) (m.inodeOf 4) m).map
          fun end_ => end_.1.map Held.dentry) = .ok (.ok (.backend 3)) ∧
      ∀ m, runSample 4 = .ok m → ¬ OwnInodes sampleTree (fun _ => []) sampleTree.path m := by
  have hshared : (runSample 4).map (fun m => (m.inodeOf 3, m.inodeOf 4)) =
      .ok (some 3, some 3) := by
    decide +kernel
  refine ⟨hshared, by decide +kernel, ?_⟩
  intro m hm hown
  have hview := map_ok hshared hm
  simp only [Prod.mk.injEq] at hview
  have hparent := (hown.entries 3 4 3 hview.1 hview.2).1
  exact absurd hparent (by decide)

end Defuse.WrapModule
