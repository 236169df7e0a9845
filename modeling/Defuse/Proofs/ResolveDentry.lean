import Defuse.Spec.WrapModule

/-! Resolving a backend dentry: it ends in every state that calls of the module lead to, and all
it does to the state is to take references and to store some of them in inodes that had none. The
dentry it finds stands where the entry does, as far as that holds of the ones that are stored. -/

namespace Defuse.WrapModule

open CSem Proc

/-- A notion of where backend dentries stand for the entries of a tree, and of which entries stand
at the same place. -/
structure Placement where
  Tree : Dcache → Prop
  Same : ℕ → ℕ → Prop
  At : ℕ → Held → Prop
  same : Equivalence Same
  at_same : ∀ d d' b, Same d d' → At d b → At d' b
  at_self : ∀ d, At d ⟨.proxy d, none⟩

/-- Nothing is said about places. -/
def Placement.anywhere : Placement where
  Tree _ := True
  Same _ _ := True
  At _ _ := True
  same := ⟨fun _ => trivial, fun _ => trivial, fun _ _ => trivial⟩
  at_same _ _ _ _ _ := trivial
  at_self _ := trivial

def Placement.Finds (P : Placement) (k : Kernel) : Prop :=
  ∀ t, P.Tree t → ∀ entry bParent d r, P.At (t.parent entry) bParent →
    k.lookupOneLen bParent.dentry (t.name entry) = some d → P.At entry ⟨d, some r⟩

variable {P : Placement} {k : Kernel} {m m₁ m₂ : State} {b : Held} {d entry i : ℕ}

theorem Placement.finds_anywhere (k : Kernel) : Placement.anywhere.Finds k :=
  fun _ _ _ _ _ _ _ _ => trivial

/-! The state -/

theorem State.mem_of_inodeOf (h : m.inodeOf d = some i) : (d, i) ∈ m.dentries := by
  obtain ⟨l₁, l₂, hl, -⟩ := List.lookup_eq_some_iff.mp h
  rw [hl]
  simp

theorem State.bDentry_setBDentry (m : State) (i j : ℕ) (b : Held) :
    ((m.setBDentry i b).inodes j).bDentry = if j = i then some b else (m.inodes j).bDentry := by
  simp only [State.setBDentry, Function.update_apply]
  split_ifs <;> rfl

theorem State.inode_setBDentry (m : State) (i j : ℕ) (b : Held) :
    (m.setBDentry i b).inodes j =
      { m.inodes j with bDentry := ((m.setBDentry i b).inodes j).bDentry } := by
  simp only [State.setBDentry, Function.update_apply]
  split_ifs with h
  · rw [h]
  · rfl

theorem State.pDentry_setBDentry (m : State) (i j : ℕ) (b : Held) :
    ((m.setBDentry i b).inodes j).pDentry = (m.inodes j).pDentry := by
  rw [State.inode_setBDentry]

theorem State.dput_same (m : State) (b : Held) :
    m.dput b = { m with released := (m.dput b).released, stray := (m.dput b).stray } := by
  unfold State.dput
  split <;> rfl

/-- The states that calls of the module lead to. -/
structure State.Sound (P : Placement) (m : State) : Prop where
  tree : P.Tree m.dcache
  roots : ∀ p ∈ m.dentries, m.dcache.path p.1 = [] → (m.inodes p.2).bDentry ≠ none
  numbers : ∀ p ∈ m.dentries, p.2 < m.fresh
  live : ∀ i ∈ m.chain, i < m.fresh
  named : ∀ i ∈ m.chain, (m.inodes i).pDentry ≠ none
  stored : ∀ i b r, (m.inodes i).bDentry = some b → b.ref = some r → r < m.taken.length
  released : ∀ r ∈ m.released, r < m.taken.length
  own : ∀ p ∈ m.dentries, ∃ d, (m.inodes p.2).pDentry = some d ∧ P.Same d p.1
  placed : ∀ i d b, (m.inodes i).pDentry = some d → (m.inodes i).bDentry = some b → P.At d b

/-- `m₁` is `m` with more references taken and more inodes resolved. -/
structure State.Extends (m m₁ : State) : Prop where
  same : m₁ = { m with inodes := m₁.inodes, taken := m₁.taken }
  inode : ∀ i, m₁.inodes i = { m.inodes i with bDentry := (m₁.inodes i).bDentry }
  taken : m.taken <+: m₁.taken
  kept : ∀ i b, (m.inodes i).bDentry = some b → (m₁.inodes i).bDentry = some b
  stored : ∀ i b r, (m₁.inodes i).bDentry = some b → b.ref = some r →
    (m.inodes i).bDentry = some b ∨ m.taken.length ≤ r ∧ r < m₁.taken.length

/-- A pointer with a reference taken since `m` that is not stored anywhere. -/
structure Held.New (m m₁ : State) (b : Held) : Prop where
  since : ∀ r, b.ref = some r → m.taken.length ≤ r ∧ r < m₁.taken.length
  unstored : ∀ r, b.ref = some r → ∀ i b', (m₁.inodes i).bDentry = some b' → b'.ref ≠ some r

theorem Held.New.mono (hb : b.New m₁ m₂) (h : m.taken.length ≤ m₁.taken.length) : b.New m m₂ where
  since := by
    intro r hr
    exact ⟨h.trans (hb.since r hr).1, (hb.since r hr).2⟩
  unstored := hb.unstored

theorem Held.New.lt (h : b.New m m₁) : ∀ r, b.ref = some r → r < m₁.taken.length :=
  fun r hr => (h.since r hr).2

namespace State.Extends

theorem refl (m : State) : m.Extends m :=
  ⟨rfl, fun _ => rfl, List.prefix_refl _, fun _ _ h => h, fun _ _ _ h _ => .inl h⟩

theorem dcache (h : m.Extends m₁) : m₁.dcache = m.dcache := by
  rw [h.same]

theorem dentries (h : m.Extends m₁) : m₁.dentries = m.dentries := by
  rw [h.same]

theorem inodeOf (h : m.Extends m₁) : m₁.inodeOf d = m.inodeOf d := by
  rw [State.inodeOf, State.inodeOf, h.dentries]

theorem chain (h : m.Extends m₁) : m₁.chain = m.chain := by
  rw [h.same]

theorem fresh (h : m.Extends m₁) : m₁.fresh = m.fresh := by
  rw [h.same]

theorem released (h : m.Extends m₁) : m₁.released = m.released := by
  rw [h.same]

theorem writers (h : m.Extends m₁) : m₁.writers = m.writers := by
  rw [h.same]

theorem sb (h : m.Extends m₁) : (m₁.inodes i).sb = (m.inodes i).sb := by
  rw [h.inode i]

theorem pDentry (h : m.Extends m₁) : (m₁.inodes i).pDentry = (m.inodes i).pDentry := by
  rw [h.inode i]

theorem trans (h : m.Extends m₁) (h' : m₁.Extends m₂) : m.Extends m₂ where
  same := by
    rw [h'.same, h.same]
  inode := by
    intro i
    rw [h'.inode, h.inode]
  taken := h.taken.trans h'.taken
  kept := fun i b hb => h'.kept i b (h.kept i b hb)
  stored := by
    intro i b r hb hr
    have hgrow := h.taken.length_le
    have hgrow' := h'.taken.length_le
    obtain hb₁ | hnew := h'.stored i b r hb hr
    · obtain hb₀ | hnew := h.stored i b r hb₁ hr
      · exact .inl hb₀
      · exact .inr (by omega)
    · exact .inr (by omega)

theorem take (h : m.Extends m₁) (d : Dentry) : m.Extends (m₁.take d) where
  same := by
    rw [h.same]
    rfl
  inode := h.inode
  taken := h.taken.trans (List.prefix_append _ _)
  kept := h.kept
  stored := by
    intro i b r hb hr
    have hlen : (m₁.take d).taken.length = m₁.taken.length + 1 := by simp [State.take]
    obtain hb₀ | hnew := h.stored i b r hb hr
    · exact .inl hb₀
    · exact .inr (by omega)

theorem store (h : m.Extends m₁) (hi : (m.inodes i).bDentry = none) (hb : b.New m m₁) :
    m.Extends (m₁.setBDentry i b) where
  same := by
    rw [h.same]
    rfl
  inode := by
    intro j
    rw [State.inode_setBDentry, h.inode j]
  taken := h.taken
  kept := by
    intro j b' hj
    rw [State.bDentry_setBDentry, if_neg]
    · exact h.kept j b' hj
    · intro hji
      rw [hji, hi] at hj
      cases hj
  stored := by
    intro j b' r hj hr
    rw [State.bDentry_setBDentry] at hj
    split_ifs at hj
    · cases hj
      exact .inr (hb.since r hr)
    · exact h.stored j b' r hj hr

end State.Extends

namespace State.Sound

theorem at_of_inodeOf (h : m.Sound P) (hd : m.inodeOf d = some i)
    (hb : (m.inodes i).bDentry = some b) : P.At d b := by
  obtain ⟨p, hp, hsame⟩ := h.own _ (State.mem_of_inodeOf hd)
  exact P.at_same p d b hsame (h.placed i p b hp hb)

theorem take (h : m.Sound P) (d : Dentry) : (m.take d).Sound P := by
  have hlen : (m.take d).taken.length = m.taken.length + 1 := by simp [State.take]
  refine ⟨h.tree, h.roots, h.numbers, h.live, h.named, ?_, ?_, h.own, h.placed⟩
  · intro i b r hb hr
    have := h.stored i b r hb hr
    omega
  · intro r hr
    have := h.released r hr
    omega

theorem setBDentry (h : m.Sound P) (hb : ∀ r, b.ref = some r → r < m.taken.length)
    (hat : ∀ d, (m.inodes i).pDentry = some d → P.At d b) : (m.setBDentry i b).Sound P where
  tree := h.tree
  roots := by
    intro p hp hroot
    rw [State.bDentry_setBDentry]
    split_ifs
    · simp
    · exact h.roots p hp hroot
  numbers := h.numbers
  live := h.live
  named := by
    intro j hj
    rw [State.pDentry_setBDentry]
    exact h.named j hj
  stored := by
    intro j b' r hj hr
    rw [State.bDentry_setBDentry] at hj
    split_ifs at hj
    · cases hj
      exact hb r hr
    · exact h.stored j b' r hj hr
  released := h.released
  own := by
    intro p hp
    rw [State.pDentry_setBDentry]
    exact h.own p hp
  placed := by
    intro j d b' hd hj
    rw [State.pDentry_setBDentry] at hd
    rw [State.bDentry_setBDentry] at hj
    split_ifs at hj with hji
    · cases hj
      rw [hji] at hd
      exact hat d hd
    · exact h.placed j d b' hd hj

theorem dput (h : m.Sound P) (hb : ∀ r, b.ref = some r → r < m.taken.length) :
    (m.dput b).Sound P := by
  unfold State.dput
  split
  case h_1 r hr =>
    refine ⟨h.tree, h.roots, h.numbers, h.live, h.named, h.stored, ?_, h.own, h.placed⟩
    intro r' hr'
    obtain rfl | hr' := List.mem_cons.mp hr'
    · exact hb r' hr
    · exact h.released r' hr'
  case h_2 =>
    exact ⟨h.tree, h.roots, h.numbers, h.live, h.named, h.stored, h.released, h.own, h.placed⟩

end State.Sound

/-! Resolving -/

/-- What `defuse_resolve_dentry` leaves and returns. -/
structure Resolved (P : Placement) (entry : ℕ) (m : State) (found : Option Held) (m₁ : State) :
    Prop where
  extended : m.Extends m₁
  sound : m₁.Sound P
  new : ∀ b, found = some b → b.New m m₁
  place : ∀ b, found = some b → P.At entry b

theorem resolved_none (h : m.Extends m₁) (hm₁ : m₁.Sound P) : Resolved P entry m none m₁ :=
  ⟨h, hm₁, fun _ hb => (nomatch hb), fun _ hb => (nomatch hb)⟩

theorem lookupChild_gives (hk : P.Finds k) (h : m.Extends m₁) (hm₁ : m₁.Sound P)
    (hb : P.At (m₁.dcache.parent entry) b) :
    (lookupChild k entry b).Gives m₁ (Resolved P entry m) := by
  rw [lookupChild, gives_read_bind]
  split
  · -- the entry itself
    rw [gives_pure]
    refine ⟨h, hm₁, ?_, ?_⟩
    · intro b hb
      cases hb
      constructor
      · exact fun r hr => nomatch hr
      · exact fun r hr => nomatch hr
    · intro b hb
      cases hb
      exact P.at_self entry
  · rw [gives_read_bind]
    split
    · rw [gives_pure]
      exact resolved_none h hm₁
    · rename_i d hd
      rw [gives_read_bind, gives_update_bind, gives_pure]
      refine ⟨h.take d, hm₁.take d, ?_, ?_⟩
      · intro b hb
        cases hb
        have hgrow := h.taken.length_le
        constructor
        · intro r hr
          cases hr
          simp only [State.take, List.length_append, List.length_singleton]
          omega
        · intro r hr i b' hb' href
          cases hr
          exact absurd (hm₁.stored i b' _ hb' href) (lt_irrefl _)
      · intro b' hb'
        cases hb'
        exact hk _ hm₁.tree entry b d _ hb hd

theorem length_path_parent {t : Dcache} (h : t.path entry ≠ []) :
    (t.path (t.parent entry)).length + 1 = (t.path entry).length := by
  rw [(t.of_child entry h).1]
  simp

theorem resolveLoop_gives (hk : P.Finds k) (limit : ℕ) (hm : m.Sound P)
    (hlimit : (m.dcache.path entry).length < limit) :
    (resolveLoop k limit entry).Gives m (Resolved P entry m) := by
  induction limit generalizing entry with
  | zero => exact absurd hlimit (Nat.not_lt_zero _)
  | succ limit ih =>
    rw [resolveLoop, gives_read_bind, gives_read_bind]
    split
    · rw [gives_pure]
      exact resolved_none (.refl m) hm
    · rename_i i hi
      rw [gives_read_bind]
      split
      · rename_i hstored
        exact lookupChild_gives hk (.refl m) hm (hm.at_of_inodeOf hi hstored)
      · rename_i hnone
        -- the parent is not a root: its backend dentry would be stored
        have hchild : m.dcache.path entry ≠ [] := by
          intro hroot
          rw [(m.dcache.of_root entry hroot).1] at hi
          exact hm.roots _ (State.mem_of_inodeOf hi) hroot hnone
        have hparent := length_path_parent hchild
        have hrec := @ih (m.dcache.parent entry) (by omega)
        apply hrec.bind
        intro found m₁ h
        cases found with
        | none => exact gives_pure.mpr (resolved_none h.extended h.sound)
        | some bParent =>
          have hat : P.At (m.dcache.parent entry) bParent := h.place bParent rfl
          have hstore : (m₁.setBDentry i bParent).Sound P := by
            apply h.sound.setBDentry (h.new bParent rfl).lt
            intro d hd
            obtain ⟨d', hd', hsame⟩ := hm.own _ (State.mem_of_inodeOf hi)
            rw [h.extended.pDentry, hd'] at hd
            cases hd
            exact P.at_same _ d bParent (P.same.symm hsame) hat
          apply gives_update_bind.mpr
          apply lookupChild_gives hk (h.extended.store hnone (h.new bParent rfl)) hstore
          rw [← h.extended.dcache] at hat
          exact hat

theorem resolveDentry_gives (hk : P.Finds k) (hm : m.Sound P) (entry : ℕ) :
    (resolveDentry k (some entry)).Gives m (Resolved P entry m) := by
  rw [resolveDentry, gives_read_bind]
  exact resolveLoop_gives hk _ hm (Nat.lt_succ_self _)

/-- What `defuse_get_b_dentry_resolved` leaves and returns. -/
structure Accessed (P : Placement) (inode : Option ℕ) (m : State) (r : Except ℤ Held)
    (m₁ : State) : Prop where
  extended : m.Extends m₁
  sound : m₁.Sound P
  error : ∀ err, r = .error err → err = - ENOENT
  place : ∀ b, r = .ok b → ∀ i d, inode = some i → (m.inodes i).pDentry = some d → P.At d b

theorem accessed_error {inode : Option ℕ} (h : m.Extends m₁) (hm₁ : m₁.Sound P) :
    Accessed P inode m (.error (- ENOENT)) m₁ :=
  ⟨h, hm₁, fun _ he => (Except.error.inj he).symm, fun _ hb => (nomatch hb)⟩

theorem ifPositive_ends (h : m.Extends m₁) (hm₁ : m₁.Sound P)
    (hb : ∀ d, (m.inodes i).pDentry = some d → P.At d b) :
    (ifPositive k b).Ends m₁ (Accessed P (some i) m) := by
  rw [ifPositive, ends_read_bind]
  split
  · rw [ends_pure]
    refine ⟨h, hm₁, fun _ he => (nomatch he), ?_⟩
    intro b' hb' j d hj hd
    cases hb'
    cases hj
    exact hb d hd
  · rw [ends_fail]
    exact accessed_error h hm₁

theorem getBDentryResolved_ends (hk : P.Finds k) (hm : m.Sound P) (inode : Option ℕ) :
    (getBDentryResolved k inode).Ends m (Accessed P inode m) := by
  unfold getBDentryResolved
  split
  · exact ends_fail.mpr (accessed_error (.refl m) hm)
  · rename_i i
    rw [ends_read_bind]
    split
    · rename_i b hb
      exact ifPositive_ends (.refl m) hm fun d hd => hm.placed i d b hd hb
    · rw [ends_read_bind]
      cases hd : (m.inodes i).pDentry with
      | none =>
        have hnull : (resolveDentry k none).Gives m fun found m₁ => found = none ∧ m₁ = m :=
          gives_pure.mpr ⟨rfl, rfl⟩
        apply hnull.bind
        intro found m₁ h
        rw [h.1, h.2]
        exact ends_fail.mpr (accessed_error (.refl m) hm)
      | some d =>
        apply (resolveDentry_gives hk hm d).bind
        intro found m₁ h
        cases found with
        | none => exact ends_fail.mpr (accessed_error h.extended h.sound)
        | some b =>
          apply ifPositive_ends h.extended h.sound
          intro d' hd'
          rw [hd] at hd'
          cases hd'
          exact h.place b rfl

/-! Inodes -/

/-- An inode that is found has the superblock and, in its entry, the name. -/
structure Matches (m : State) (sb : ℕ) (entry : Option ℕ) (i : ℕ) : Prop where
  live : i ∈ m.chain
  sb : (m.inodes i).sb = sb
  name : ∃ d p, entry = some d ∧ (m.inodes i).pDentry = some p ∧ m.dcache.name p = m.dcache.name d

theorem findInode_ok (sb hash : ℕ) (entry : Option ℕ) (l : List ℕ) (hl : ∀ i ∈ l, i ∈ m.chain)
    (hnamed : ∀ i ∈ l, (m.inodes i).pDentry ≠ none) :
    ∃ found, findInode m sb hash entry l = .ok found ∧
      ∀ i, found = some i → Matches m sb entry i := by
  induction l with
  | nil => exact ⟨none, rfl, fun i hi => nomatch hi⟩
  | cons i rest ih =>
    obtain ⟨found, hfound, hmatch⟩ := ih (fun j hj => hl j (List.mem_cons_of_mem _ hj))
      fun j hj => hnamed j (List.mem_cons_of_mem _ hj)
    obtain ⟨p, hp⟩ := Option.ne_none_iff_exists'.mp (hnamed i List.mem_cons_self)
    unfold findInode
    split_ifs with hsb
    · cases entry with
      | none => exact ⟨found, by simp [inodeEq, hfound], hmatch⟩
      | some d =>
        simp only [inodeEq, hp, ok_bind, decide_eq_true_eq]
        split_ifs with hname
        · refine ⟨some i, rfl, ?_⟩
          intro j hj
          cases hj
          exact ⟨hl i List.mem_cons_self, hsb.1, d, p, rfl, hp, hname⟩
        · exact ⟨found, hfound, hmatch⟩
    · exact ⟨found, hfound, hmatch⟩

/-- The end of `defuse_iget`: a live inode, a new one or none. -/
inductive Got (m : State) (sb : ℕ) (entry : Option ℕ) (mode : UInt16) :
    Option ℕ → State → Prop
  | found (i : ℕ) (h : Matches m sb entry i) : Got m sb entry mode (some i) m
  | new (hash : ℕ) : Got m sb entry mode (some m.fresh) (m.allocInode sb hash mode entry)
  | none : Got m sb entry mode none m

theorem iget_gives (fullNameHash : Seg → ℕ) (hm : m.Sound P) (sb : ℕ) (entry : Option ℕ)
    (mode : UInt16) :
    (iget fullNameHash k sb entry mode).Gives m (Got m sb entry mode) := by
  obtain ⟨found, hfound, hmatch⟩ := findInode_ok sb (dhash fullNameHash m entry) entry m.chain
    (fun i hi => hi) hm.named
  unfold iget Proc.Gives Proc.Ends
  dsimp only
  rw [hfound, ok_bind]
  cases found with
  | some i => exact ⟨_, _, rfl, _, rfl, .found i (hmatch i rfl)⟩
  | none =>
    cases k.allocates with
    | true => exact ⟨_, _, rfl, _, rfl, .new _⟩
    | false => exact ⟨_, _, rfl, _, rfl, .none⟩

/-! A tree with a file of the same name in two directories, in front of a backend that has the
same dentries: `/a`, `/b`, `/a/x` and `/b/x`, numbered from 1. -/

def sampleTree : Dcache where
  parent
    | 1 | 2 => 0
    | 3 => 1
    | 4 => 2
    | d => d
  name
    | 1 => [0x61]
    | 2 => [0x62]
    | 3 | 4 => [0x78]
    | _ => [slash]
  sb _ := 0
  path
    | 1 => [[0x61]]
    | 2 => [[0x62]]
    | 3 => [[0x61], [0x78]]
    | 4 => [[0x62], [0x78]]
    | _ => []
  of_root
    | 0, _ | _ + 5, _ => ⟨rfl, rfl⟩
  of_child
    | 1, _ | 2, _ | 3, _ | 4, _ => by decide
    | 0, h | _ + 5, h => absurd rfl h
  sb_parent _ := rfl

/-- The backend dentries with inodes are `present`, and every backend call returns `vfs`. -/
def sampleKernel (present : List ℕ) (vfs : ℤ) : Kernel where
  mode d := if d ∈ present then some (S_IFDIR ||| DEFUSE_DEFAULT_MODE) else none
  lookupOneLen
    | .backend p, n => ([1, 2, 3, 4].find? fun d => sampleTree.parent d = p ∧ sampleTree.name d = n).map
      .backend
    | .proxy _, _ => none
  allocates := true
  wantWrite := 0
  vfs _ := vfs
  trap := none
  hasReadlink := false

def sampleMount : EntryCall :=
  .mount (sampleKernel [0] 0) ⟨0, true, .ok DEFUSE_DEFAULT_MODE, .ok 0, true⟩

/-- The tree after it was mounted. -/
def sampleMounted : State :=
  { State.loaded sampleTree with
    dentries := [(0, 0)]
    inodes := Function.update (State.loaded sampleTree).inodes 0
      ⟨0, 0, S_IFDIR ||| DEFUSE_DEFAULT_MODE, some 0, some ⟨.backend 0, some 0⟩⟩
    chain := [0]
    fresh := 1
    taken := [.backend 0]
    released := [0] }

theorem sampleMounted_stored {j : ℕ} (h : (sampleMounted.inodes j).bDentry = some b) :
    b = ⟨.backend 0, some 0⟩ := by
  simp only [sampleMounted, State.loaded, Function.update_apply] at h
  split_ifs at h
  exact (Option.some.inj h).symm

theorem sampleMounted_sound : sampleMounted.Sound .anywhere where
  tree := trivial
  roots := by
    intro p hp _
    rw [List.mem_singleton.mp hp]
    simp [sampleMounted]
  numbers := by simp [sampleMounted]
  live := by simp [sampleMounted]
  named := by simp [sampleMounted]
  stored := by
    intro j b r hb hr
    rw [sampleMounted_stored hb] at hr
    cases hr
    decide
  released := by simp [sampleMounted]
  own := by
    intro p hp
    rw [List.mem_singleton.mp hp]
    exact ⟨0, by simp [sampleMounted], trivial⟩
  placed := fun _ _ _ _ _ => trivial

end Defuse.WrapModule
