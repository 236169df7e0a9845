import Defuse.Proofs.ModuleRuns

/-! The references to backend dentries. `defuse_fill_super` stores the dentry it got from
`kern_path` in the root's inode and gives its only reference back, so the references are out of
balance from the first mount on, whatever is done with it. -/

namespace Defuse.WrapModule

open CSem Proc

variable {fullNameHash : Seg → ℕ} {tree : Dcache} {k : Kernel} {m : State} {d : ℕ}
  {mode : UInt16}

/-- The references balance: a backend dentry stored in a live inode has one that is not released,
none is released twice or without having been taken, and without inodes none is left. -/
structure Balanced (m : State) : Prop where
  held : ∀ i ∈ m.chain, ∀ d r, (m.inodes i).bDentry = some ⟨.backend d, r⟩ →
    ∃ r', m.taken[r']? = some (.backend d) ∧ r' ∉ m.released
  once : m.released.Nodup
  taken : ∀ r ∈ m.released, r < m.taken.length
  stray : m.stray = 0
  none_left : m.chain = [] → ∀ r < m.taken.length, r ∈ m.released

/-- Nothing is mounted, and every reference that was taken is released. -/
structure Idle (tree : Dcache) (m : State) : Prop where
  dcache : m.dcache = tree
  dentries : m.dentries = []
  chain : m.chain = []
  once : m.released.Nodup
  stray : m.stray = 0
  released : ∀ r, r ∈ m.released ↔ r < m.taken.length

theorem Idle.balanced (h : Idle tree m) : Balanced m where
  held := by
    intro i hi
    rw [h.chain] at hi
    exact nomatch hi
  once := h.once
  taken := fun r => (h.released r).mp
  stray := h.stray
  none_left := fun _ r => (h.released r).mpr

theorem loaded_idle (tree : Dcache) : Idle tree (State.loaded tree) where
  dcache := rfl
  dentries := rfl
  chain := rfl
  once := List.nodup_nil
  stray := rfl
  released := by simp [State.loaded]

/-! Mounts -/

/-- The options are right and name a directory. -/
def MountData.finds (k : Kernel) (data : MountData) : Bool :=
  match data.options, data.kernPath with
  | .ok _, .ok d => (k.mode d).any S_ISDIR
  | _, _ => false

/-- A mount that succeeds. -/
def EntryCall.mounts (tree : Dcache) : EntryCall → Bool
  | .mount k data => (tree.path data.root).isEmpty &&
      (data.hasInfo && data.finds k && (data.makesRoot && k.allocates))
  | _ => false

def Event.mounts (tree : Dcache) : Event → Bool
  | .named call => call.mounts tree
  | _ => false

theorem Idle.put (h : Idle tree m) {f : ℕ → DefuseInode} {c : List ℕ} {n : ℕ} (hc : c = []) :
    Idle tree (State.dput ⟨.backend d, some m.taken.length⟩
      { m with inodes := f, chain := c, fresh := n, taken := m.taken ++ [.backend d] }) where
  dcache := h.dcache
  dentries := h.dentries
  chain := hc
  once := by
    change (m.taken.length :: m.released).Nodup
    rw [List.nodup_cons, h.released]
    exact ⟨lt_irrefl _, h.once⟩
  stray := h.stray
  released := by
    intro r
    change r ∈ m.taken.length :: m.released ↔ r < (m.taken ++ [Dentry.backend d]).length
    rw [List.mem_cons, h.released, List.length_append, List.length_singleton]
    omega

/-- The stored dentry of a live inode, with every reference released. -/
def Spent (m : State) : Prop :=
  ∃ i ∈ m.chain, ∃ d r, (m.inodes i).bDentry = some ⟨.backend d, r⟩ ∧
    ∀ r < m.taken.length, r ∈ m.released

theorem Spent.not_balanced (h : Spent m) : ¬ Balanced m := by
  intro hb
  obtain ⟨i, hi, d, r, hstored, hall⟩ := h
  obtain ⟨r', htaken, hnot⟩ := hb.held i hi d r hstored
  exact hnot (hall r' (List.getElem?_eq_some_iff.mp htaken).1)

def Outcome (tree : Dcache) (mounts : Bool) (m : State) : Prop :=
  if mounts then Spent m else Idle tree m

theorem iget_idle (h : m.chain = []) (sb : ℕ) :
    (iget fullNameHash k sb none mode).Gives m fun found m₁ =>
      if k.allocates then found = some m.fresh ∧ ∃ hash, m₁ = m.allocInode sb hash mode none
      else found = none ∧ m₁ = m := by
  unfold iget Proc.Gives Proc.Ends
  dsimp only
  rw [h, findInode, ok_bind]
  dsimp only
  split_ifs
  · exact ⟨_, _, rfl, _, rfl, rfl, _, rfl⟩
  · exact ⟨_, _, rfl, _, rfl, rfl, rfl⟩

theorem mountBackend_idle (h : Idle tree m) (data : MountData) :
    (mountBackend fullNameHash k data mode ⟨.backend d, some m.taken.length⟩).Ends
      (m.take (.backend d)) fun _ => Outcome tree (data.makesRoot && k.allocates) := by
  rw [mountBackend, ends_read_bind]
  apply (iget_idle (m := m.take (.backend d)) h.chain _).bind
  intro found m₁ hgot
  split_ifs at hgot with halloc
  · obtain ⟨rfl, hash, rfl⟩ := hgot
    dsimp only
    split_ifs with hroot
    · -- the root's inode has the dentry, and the reference is given back
      simp only [ends_update_bind, ends_update]
      rw [Outcome, if_pos (by simp [hroot, halloc])]
      refine ⟨m.fresh, List.mem_cons_self, d, some m.taken.length, ?_, ?_⟩
      · simp [State.dput, State.setBDentry, State.take]
      · intro r hr
        change r < (m.taken ++ [Dentry.backend d]).length at hr
        change r ∈ m.taken.length :: m.released
        rw [List.length_append, List.length_singleton] at hr
        rw [List.mem_cons, h.released]
        omega
    · rw [ends_update_bind, ends_update_bind, ends_fail, Outcome, if_neg (by simp [hroot])]
      have hnone : (m.fresh :: m.chain).erase m.fresh = [] := by
        rw [List.erase_cons_head, h.chain]
      exact h.put hnone
  · obtain ⟨rfl, rfl⟩ := hgot
    rw [ends_update_bind, ends_fail, Outcome, if_neg (by simp [halloc])]
    exact h.put h.chain

theorem fillSuper_idle (h : Idle tree m) (data : MountData) :
    (fillSuper fullNameHash k data).Ends m fun _ =>
      Outcome tree (data.hasInfo && data.finds k && (data.makesRoot && k.allocates)) := by
  have hnone : data.hasInfo = false ∨ data.finds k = false →
      Outcome tree (data.hasInfo && data.finds k && (data.makesRoot && k.allocates)) m := by
    intro hfails
    rw [Outcome, if_neg]
    · exact h
    · obtain hf | hf := hfails <;> simp [hf]
  unfold fillSuper
  split_ifs with hinfo
  · split
    · rename_i hopt
      exact ends_fail.mpr (hnone (.inr (by simp [MountData.finds, hopt])))
    · rename_i hopt hpath
      exact ends_fail.mpr (hnone (.inr (by simp [MountData.finds, hopt, hpath])))
    · rename_i mode d hopt hpath
      have hfinds : data.finds k = (k.mode d).any S_ISDIR := by
        simp [MountData.finds, hopt, hpath]
      rw [ends_read_bind, ends_update_bind]
      split_ifs with hdir
      · rw [hinfo, hfinds, hdir]
        exact mountBackend_idle h data
      · rw [ends_update_bind, ends_fail, Outcome, if_neg (by simp [hfinds, hdir])]
        exact h.put h.chain
  · exact ends_fail.mpr (hnone (.inl (by simpa using hinfo)))

theorem Idle.inodeOf (h : Idle tree m) (d : ℕ) : m.inodeOf d = none := by
  rw [State.inodeOf, h.dentries]
  rfl

theorem mount_idle (h : Idle tree m) (data : MountData) :
    ((EntryCall.mount k data).exec fullNameHash).Ends m fun _ =>
      Outcome tree ((EntryCall.mount k data).mounts tree) := by
  rw [EntryCall.exec, ends_read_bind, h.dcache, h.inodeOf]
  split_ifs with hroot
  · simp only [Option.isNone_none, Bool.and_true] at hroot
    rw [EntryCall.mounts, hroot]
    exact fillSuper_idle h data
  · simp only [Option.isNone_none, Bool.and_true, Bool.not_eq_true] at hroot
    rw [ends_pure, Outcome, if_neg (by simp [EntryCall.mounts, hroot])]
    exact h

/-! The other calls -/

theorem inDirectory_idle (h : Idle tree m) (entry : ℕ) (call : ℕ → Call Unit) :
    (inDirectory entry call).Ends m fun _ m₁ => m₁ = m := by
  rw [inDirectory, ends_read_bind, h.inodeOf]
  exact ends_pure.mpr rfl

theorem access_idle {inode : State → Option ℕ} {f : Held → Call Unit}
    (hinode : inode m = none) :
    (do f (← getBDentryResolved k (← Proc.read inode))).Ends m fun _ m₁ => m₁ = m := by
  rw [ends_read_bind, hinode, ends_bind]
  exact ends_fail.mpr rfl

theorem attributes_idle (h : Idle tree m) (entry : ℕ) (call : AttributeCall) :
    (call.exec k entry).Ends m fun _ m₁ => m₁ = m := by
  cases call <;> exact access_idle (h.inodeOf entry)

theorem exec_idle (h : Idle tree m) (e : Event) :
    (e.exec fullNameHash).Ends m fun _ => Outcome tree (e.mounts tree) := by
  have hsame : ∀ (r : Except ℤ Unit) (m₁ : State), m₁ = m → Outcome tree false m₁ := by
    intro _ m₁ hm₁
    rw [hm₁]
    exact h
  cases e with
  | named call =>
    cases call with
    | mount k data => exact mount_idle h data
    | lookup k entry flags moved => exact (inDirectory_idle h _ _).mono hsame
    | create k entry what => exact (inDirectory_idle h _ _).mono hsame
  | delete k entry => exact (inDirectory_idle h _ _).mono hsame
  | rename k oldent newent moved => exact (access_idle (h.inodeOf _)).mono hsame
  | attributes k entry call => exact (attributes_idle h entry call).mono hsame
  | dropEntry entry =>
    rw [Event.exec, ends_update]
    apply hsame (.ok ())
    rw [h.dentries, List.filter_nil, ← h.dentries]
  | destroyInode i =>
    rw [Event.exec, ends_update, if_neg (by simp [h.chain])]
    exact h
  | unmount sb =>
    rw [Event.exec, ends_update, killSb, h.chain, List.filter_nil, List.foldl_nil]
    exact ⟨h.dcache, by rw [h.dentries]; rfl, rfl, h.once, h.stray, h.released⟩

theorem step_idle (h : Idle tree m) (e : Event) :
    ∃ m₁, step fullNameHash m e = .ok m₁ ∧ Outcome tree (e.mounts tree) m₁ := by
  obtain ⟨r, m₁, hrun, hout⟩ := @exec_idle fullNameHash tree m h e
  exact ⟨m₁, by rw [step, hrun]; rfl, hout⟩

/-! Runs -/

theorem balance_iff_of_idle (h : Idle tree m) (events : List Event) :
    (∀ pre, pre <+: events → ∃ m', run (step fullNameHash) m pre = .ok m' ∧ Balanced m') ↔
      ∀ e ∈ events, e.mounts tree = false := by
  induction events generalizing m with
  | nil =>
    simp only [List.prefix_nil, forall_eq, List.not_mem_nil, false_implies, implies_true, iff_true]
    exact ⟨m, rfl, h.balanced⟩
  | cons e events ih =>
    obtain ⟨m₁, hstep, hout⟩ := @step_idle fullNameHash tree m h e
    have hrun : ∀ pre, run (step fullNameHash) m (e :: pre) = run (step fullNameHash) m₁ pre := by
      intro pre
      rw [run, List.foldlM_cons, hstep]
      rfl
    cases hmounts : e.mounts tree with
    | true =>
      -- out of balance after the mount
      rw [hmounts] at hout
      constructor
      · intro hall
        obtain ⟨m', hm', hbalanced⟩ := hall [e] (by simp)
        rw [hrun] at hm'
        cases hm'
        exact absurd hbalanced (Spent.not_balanced hout)
      · intro hall
        have hfalse := hall e List.mem_cons_self
        rw [hmounts] at hfalse
        cases hfalse
    | false =>
      rw [hmounts] at hout
      have hrest := ih hout
      constructor
      · intro hall e' he'
        obtain rfl | he' := List.mem_cons.mp he'
        · exact hmounts
        · apply hrest.mp _ e' he'
          intro pre hpre
          rw [← hrun]
          exact hall (e :: pre) (List.cons_prefix_cons.mpr ⟨rfl, hpre⟩)
      · intro hall pre hpre
        cases pre with
        | nil => exact ⟨m, rfl, h.balanced⟩
        | cons e' pre =>
          obtain ⟨rfl, hpre'⟩ := List.cons_prefix_cons.mp hpre
          rw [hrun]
          exact hrest.mpr (fun e he => hall e (List.mem_cons_of_mem _ he)) pre hpre'

/-- The references balance throughout a run exactly if no mount of the run succeeds. -/
theorem references_balance_iff (fullNameHash : Seg → ℕ) (tree : Dcache) (events : List Event) :
    (∀ pre, pre <+: events →
      ∃ m, run (step fullNameHash) (State.loaded tree) pre = .ok m ∧ Balanced m) ↔
      ∀ e ∈ events, e.mounts tree = false :=
  balance_iff_of_idle (loaded_idle tree) events

/-- A mount leaves the root's backend dentry without a reference, and the unmount releases the
one that was taken a second time. -/
theorem mount_releases_root :
    (run (step List.length) (State.loaded sampleTree) [.named sampleMount]).map
        (fun m => (m.chain, (m.inodes 0).bDentry, m.taken, m.released)) =
      .ok ([0], some ⟨.backend 0, some 0⟩, [.backend 0], [0]) ∧
    (run (step List.length) (State.loaded sampleTree) [.named sampleMount, .unmount 0]).map
        (fun m => (m.chain, m.released)) = .ok ([], [0, 0]) ∧
    ∀ m, run (step List.length) (State.loaded sampleTree) [.named sampleMount] = .ok m →
      ¬ Balanced m := by
  have hmounted : (run (step List.length) (State.loaded sampleTree) [.named sampleMount]).map
      (fun m => (m.chain, (m.inodes 0).bDentry, m.taken, m.released)) =
      .ok ([0], some ⟨.backend 0, some 0⟩, [.backend 0], [0]) := by
    decide +kernel
  refine ⟨hmounted, by decide +kernel, ?_⟩
  intro m hm
  have hview := map_ok hmounted hm
  simp only [Prod.mk.injEq] at hview
  obtain ⟨hchain, hstored, htaken, hreleased⟩ := hview
  apply Spent.not_balanced
  refine ⟨0, by simp [hchain], 0, some 0, hstored, ?_⟩
  simp [htaken, hreleased]

end Defuse.WrapModule
