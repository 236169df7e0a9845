import Defuse.Proofs.ResolveDentry

/-! Whole runs of the module: which calls keep a state sound. From the first mount on none of them
runs into the recursion at a root without a backend dentry, or into an inode without an entry. -/

namespace Defuse.WrapModule

open CSem Proc

variable {fullNameHash : Seg → ℕ} {P : Placement} {k : Kernel} {m m₁ m₂ : State} {b : Held}
  {d dir entry i : ℕ} {mode : UInt16} {hardlink : Option ℕ} {moved : Dcache}

/-! The updates of the state -/

/-- An inode for an entry: the one it was made for stands at the same place. -/
structure Owns (P : Placement) (entry : ℕ) (m : State) (i : ℕ) : Prop where
  lt : i < m.fresh
  own : ∃ p, (m.inodes i).pDentry = some p ∧ P.Same p entry

namespace State.Sound

theorem instantiate (h : m.Sound P) (hi : Owns P d m i)
    (hroot : m.dcache.path d = [] → (m.inodes i).bDentry ≠ none) :
    (m.instantiate d i).Sound P where
  tree := h.tree
  roots := by
    intro p hp hpath
    obtain rfl | hp := List.mem_cons.mp hp
    · exact hroot hpath
    · exact h.roots p hp hpath
  numbers := by
    intro p hp
    obtain rfl | hp := List.mem_cons.mp hp
    · exact hi.lt
    · exact h.numbers p hp
  live := h.live
  named := h.named
  stored := h.stored
  released := h.released
  own := by
    intro p hp
    obtain rfl | hp := List.mem_cons.mp hp
    · exact hi.own
    · exact h.own p hp
  placed := h.placed

theorem setOwn (h : m.Sound P) (hi : Owns P d m i)
    (hb : ∀ r, b.ref = some r → r < m.taken.length) (hat : P.At d b) :
    (m.setBDentry i b).Sound P := by
  apply h.setBDentry hb
  intro p hp
  obtain ⟨p', hp', hsame⟩ := hi.own
  rw [hp'] at hp
  cases hp
  exact P.at_same d p b (P.same.symm hsame) hat

/-- A new inode, which no entry has. -/
theorem newInode (h : m.Sound P) (inode : DefuseInode) (hb : inode.bDentry = none) (c : List ℕ)
    (hc : ∀ i ∈ c, i = m.fresh ∧ inode.pDentry ≠ none ∨ i ∈ m.chain) :
    State.Sound P { m with
      inodes := Function.update m.inodes m.fresh inode
      chain := c
      fresh := m.fresh + 1 } := by
  have hold : ∀ j, j < m.fresh → Function.update m.inodes m.fresh inode j = m.inodes j :=
    fun j hj => Function.update_of_ne (by omega) _ _
  refine ⟨h.tree, ?_, ?_, ?_, ?_, ?_, h.released, ?_, ?_⟩
  · intro p hp hroot
    dsimp only
    rw [hold p.2 (h.numbers p hp)]
    exact h.roots p hp hroot
  · intro p hp
    exact (h.numbers p hp).trans (Nat.lt_succ_self _)
  · intro j hj
    obtain ⟨rfl, -⟩ | hj := hc j hj
    · exact Nat.lt_succ_self _
    · exact (h.live j hj).trans (Nat.lt_succ_self _)
  · intro j hj
    dsimp only
    obtain ⟨rfl, hp⟩ | hj := hc j hj
    · rw [Function.update_self]
      exact hp
    · rw [hold j (h.live j hj)]
      exact h.named j hj
  · intro j b r hj hr
    dsimp only at hj
    rw [Function.update_apply] at hj
    split_ifs at hj
    · rw [hb] at hj
      cases hj
    · exact h.stored j b r hj hr
  · intro p hp
    dsimp only
    rw [hold p.2 (h.numbers p hp)]
    exact h.own p hp
  · intro j d b hd hj
    dsimp only at hd hj
    rw [Function.update_apply] at hd hj
    split_ifs at hd hj
    · rw [hb] at hj
      cases hj
    · exact h.placed j d b hd hj

theorem allocInode (h : m.Sound P) (sb hash : ℕ) (mode : UInt16) (d : ℕ) :
    (m.allocInode sb hash mode (some d)).Sound P := by
  apply h.newInode _ rfl
  intro i hi
  obtain rfl | hi := List.mem_cons.mp hi
  · exact .inl ⟨rfl, by simp⟩
  · exact .inr hi

theorem shrink (h : m.Sound P) {l : List (ℕ × ℕ)} {c : List ℕ} (hl : ∀ p ∈ l, p ∈ m.dentries)
    (hc : ∀ i ∈ c, i ∈ m.chain) : State.Sound P { m with dentries := l, chain := c } where
  tree := h.tree
  roots := fun p hp => h.roots p (hl p hp)
  numbers := fun p hp => h.numbers p (hl p hp)
  live := fun i hi => h.live i (hc i hi)
  named := fun i hi => h.named i (hc i hi)
  stored := h.stored
  released := h.released
  own := fun p hp => h.own p (hl p hp)
  placed := h.placed

theorem move (h : m.Sound P) (htree : P.Tree moved)
    (hroots : ∀ d, moved.path d = [] → m.dcache.path d = []) :
    State.Sound P { m with dcache := moved } :=
  ⟨htree, fun p hp hroot => h.roots p hp (hroots p.1 hroot), h.numbers, h.live, h.named, h.stored,
    h.released, h.own, h.placed⟩

theorem setWriters (h : m.Sound P) (n : ℤ) : State.Sound P { m with writers := n } :=
  ⟨h.tree, h.roots, h.numbers, h.live, h.named, h.stored, h.released, h.own, h.placed⟩

theorem wantWrite (h : m.Sound P) : m.wantWrite.Sound P := h.setWriters _

theorem iCallback (h : m.Sound P) (i : ℕ) : (WrapModule.iCallback m i).Sound P := by
  have herase : State.Sound P { m with chain := m.chain.erase i } :=
    h.shrink (fun _ hp => hp) fun _ hj => List.mem_of_mem_erase hj
  unfold WrapModule.iCallback
  split
  case h_1 b hb => exact herase.dput fun r hr => h.stored i b r hb hr
  case h_2 => exact herase

theorem foldl_iCallback (l : List ℕ) (h : m.Sound P) :
    (l.foldl WrapModule.iCallback m).Sound P := by
  induction l generalizing m with
  | nil => exact h
  | cons i l ih => exact ih (h.iCallback i)

theorem killSb (h : m.Sound P) (sb : ℕ) : (WrapModule.killSb sb m).Sound P := by
  apply foldl_iCallback
  exact h.shrink (fun p hp => List.mem_of_mem_filter hp) fun _ hj => hj

end State.Sound

/-! Getting an inode -/

/-- Every live inode of the directory's superblock whose entry has the name of `entry` was made
for an entry at the same place. -/
def Apart (P : Placement) (m : State) (dir entry : ℕ) : Prop :=
  ∀ i ∈ m.chain, (m.inodes i).sb = (m.inodes dir).sb → ∀ p, (m.inodes i).pDentry = some p →
    m.dcache.name p = m.dcache.name entry → P.Same p entry

theorem Apart.of_extends (h : Apart P m dir entry) (he : m.Extends m₁) :
    Apart P m₁ dir entry := by
  intro i hi hsb p hp hname
  rw [he.chain] at hi
  rw [he.sb, he.sb] at hsb
  rw [he.pDentry] at hp
  rw [he.dcache] at hname
  exact h i hi hsb p hp hname

/-- What `defuse_iget` leaves and returns. -/
structure Obtained (P : Placement) (entry : ℕ) (m : State) (found : Option ℕ) (m₁ : State) :
    Prop where
  same : m₁ = { m with inodes := m₁.inodes, chain := m₁.chain, fresh := m₁.fresh }
  sound : m₁.Sound P
  none : found = none → m₁ = m
  owns : ∀ i, found = some i → Owns P entry m₁ i

theorem iget_obtains (hm : m.Sound P) (hapart : Apart P m dir entry) :
    (iget fullNameHash k (m.inodes dir).sb (some entry) mode).Gives m (Obtained P entry m) := by
  apply (iget_gives fullNameHash hm _ _ _).mono
  intro r m₁ hr
  obtain ⟨found, rfl, hgot⟩ := hr
  refine ⟨found, rfl, ?_⟩
  cases hgot with
  | none => exact ⟨rfl, hm, fun _ => rfl, fun _ h => (nomatch h)⟩
  | new hash =>
    refine ⟨rfl, hm.allocInode _ _ _ _, fun h => (nomatch h), ?_⟩
    intro i hi
    cases hi
    constructor
    · exact Nat.lt_succ_self _
    · exact ⟨entry, by simp [State.allocInode], P.same.refl entry⟩
  | found i hmatch =>
    refine ⟨rfl, hm, fun h => (nomatch h), ?_⟩
    intro j hj
    cases hj
    obtain ⟨d, p, hd, hp, hname⟩ := hmatch.name
    cases hd
    exact ⟨hm.live i hmatch.live, p, hp, hapart i hmatch.live hmatch.sb p hp hname⟩

/-! Creating -/

/-- What a failure leaves: more references, and perhaps the last of them given back. -/
inductive Undone (m : State) : State → Prop
  | kept {m₁ : State} (h : m.Extends m₁) : Undone m m₁
  | put {m₁ : State} {b : Held} (h : m.Extends m₁) (hb : b.New m m₁) : Undone m (m₁.dput b)

/-- A failed call. -/
structure Failed (P : Placement) (m : State) (err : ℤ) (m₁ : State) : Prop where
  err_ne : err ≠ 0
  undone : Undone m m₁
  sound : m₁.Sound P

theorem Accessed.failed {inode : Option ℕ} {err : ℤ} (h : Accessed P inode m₁ (.error err) m₂)
    (h₁ : m.Extends m₁) : Failed P m err m₂ := by
  refine ⟨?_, .kept (h₁.trans h.extended), h.sound⟩
  rw [h.error err rfl]
  decide

/-- What `newDentry` leaves and returns. -/
structure Prepared (P : Placement) (entry : ℕ) (m : State) (b : Held) (m₁ : State) : Prop where
  extended : m.Extends m₁
  sound : m₁.Sound P
  new : b.New m m₁
  place : P.At entry b

theorem resolveHardlink_ends (hk : P.Finds k) (hm : m.Sound P) :
    (resolveHardlink k hardlink).Ends m fun r m₁ =>
      m.Extends m₁ ∧ m₁.Sound P ∧ ∀ err, r = .error err → Failed P m err m₁ := by
  unfold resolveHardlink
  split
  · rw [ends_pure]
    exact ⟨.refl m, hm, fun err h => nomatch h⟩
  · rw [ends_read_bind]
    apply (getBDentryResolved_ends hk hm _).bind
    · intro err m₁ h
      refine ⟨h.extended, h.sound, ?_⟩
      intro err' he
      cases he
      exact h.failed (.refl m)
    · intro b m₁ h
      rw [ends_pure]
      exact ⟨h.extended, h.sound, fun err he => nomatch he⟩

theorem Failed.after {err : ℤ} (h : Failed P m₁ err m₂) (h₁ : m.Extends m₁) :
    Failed P m err m₂ := by
  refine ⟨h.err_ne, ?_, h.sound⟩
  cases h.undone with
  | kept h₂ => exact .kept (h₁.trans h₂)
  | put h₂ hb => exact .put (h₁.trans h₂) (hb.mono h₁.taken.length_le)

theorem newDentry_ends (hk : P.Finds k) (hm : m.Sound P) :
    (newDentry k dir entry hardlink).Ends m fun r m₁ =>
      match r with
      | .error err => Failed P m err m₁
      | .ok b => Prepared P entry m b m₁ := by
  apply (getBDentryResolved_ends hk hm _).bind
  · intro err m₁ h
    exact h.failed (.refl m)
  intro _ m₁ h₁
  apply (resolveHardlink_ends hk h₁.sound).bind
  · intro err m₂ h₂
    exact (h₂.2.2 err rfl).after h₁.extended
  intro _ m₂ h₂
  have h₁₂ := h₁.extended.trans h₂.1
  apply (resolveDentry_gives hk h₂.2.1 entry).bind
  intro found m₃ h₃
  have h₁₃ := h₁₂.trans h₃.extended
  cases found with
  | none => exact ends_fail.mpr ⟨by decide, .kept h₁₃, h₃.sound⟩
  | some b =>
    have hb := (h₃.new b rfl).mono h₁₂.taken.length_le
    rw [ends_read_bind]
    split
    · rw [ends_update_bind, ends_fail]
      exact ⟨by decide, .put h₁₃ hb, h₃.sound.dput hb.lt⟩
    · rw [ends_pure]
      exact ⟨h₁₃, h₃.sound, hb, h₃.place b rfl⟩

/-- What `createTarget` leaves and returns. -/
structure Target (P : Placement) (entry : ℕ) (m : State) (target : Held × ℕ) (m₁ : State) :
    Prop where
  sound : m₁.Sound P
  dcache : m₁.dcache = m.dcache
  writers : m₁.writers = m.writers
  lt : ∀ r, target.1.ref = some r → r < m₁.taken.length
  place : P.At entry target.1
  owns : Owns P entry m₁ target.2

/-- The call gets as far as `defuse_iget`. -/
def createAsks (k : Kernel) (dir entry : ℕ) (hardlink : Option ℕ) (m : State) : Bool :=
  match newDentry k dir entry hardlink m with
  | .ok (.ok _, _) => true
  | _ => false

theorem createTarget_ends (hk : P.Finds k) (hm : m.Sound P)
    (hapart : createAsks k dir entry hardlink m → Apart P m dir entry) :
    (createTarget fullNameHash k dir entry mode hardlink).Ends m fun r m₁ =>
      match r with
      | .error err => Failed P m err m₁
      | .ok target => Target P entry m target m₁ := by
  apply (newDentry_ends hk hm).with_run.bind
  · intro err m₁ h
    exact h.2
  intro b m₁ h
  obtain ⟨hrun, h⟩ := h
  have hasks : createAsks k dir entry hardlink m := by
    rw [createAsks, hrun]
  rw [ends_read_bind]
  apply (iget_obtains h.sound ((hapart hasks).of_extends h.extended)).bind
  intro found m₂ hgot
  cases found with
  | none =>
    rw [hgot.none rfl, ends_update_bind, ends_fail]
    exact ⟨by decide, .put h.extended h.new, h.sound.dput h.new.lt⟩
  | some i =>
    rw [ends_pure]
    refine ⟨hgot.sound, ?_, ?_, ?_, h.place, hgot.owns i rfl⟩
    · rw [hgot.same]
      exact h.extended.dcache
    · rw [hgot.same]
      exact h.extended.writers
    · rw [hgot.same]
      exact h.new.lt

abbrev EndsSound (P : Placement) {α : Type} (call : Call α) (m : State) : Prop :=
  call.Ends m fun _ m₁ => m₁.Sound P

theorem EndsSound.bind {α β : Type} {call : Call α} {f : α → Call β} (h : EndsSound P call m)
    (hf : ∀ a m, State.Sound P m → EndsSound P (f a) m) : EndsSound P (call >>= f) m :=
  Ends.bind h (fun _ _ hm => hm) fun a m₁ hm => hf a m₁ hm

theorem Target.dput {target : Held × ℕ} (h : Target P entry m target m₁) :
    Target P entry m target (m₁.dput target.1) := by
  refine ⟨h.sound.dput h.lt, ?_, ?_, ?_, h.place, ?_⟩
  all_goals rw [State.dput_same]
  · exact h.dcache
  · exact h.writers
  · exact h.lt
  · exact ⟨h.owns.lt, h.owns.own⟩

theorem Target.finish {target : Held × ℕ} (h : Target P entry m target m₁)
    (hchild : m.dcache.path entry ≠ []) :
    ((m₁.instantiate entry target.2).setBDentry target.2 target.1).Sound P := by
  have hinst : (m₁.instantiate entry target.2).Sound P := by
    apply h.sound.instantiate h.owns
    intro hroot
    rw [h.dcache] at hroot
    exact absurd hroot hchild
  exact hinst.setOwn ⟨h.owns.lt, h.owns.own⟩ h.lt h.place

theorem doCreate_sound (hk : P.Finds k) (hm : m.Sound P)
    (hapart : createAsks k dir entry hardlink m → Apart P m dir entry)
    (hchild : m.dcache.path entry ≠ []) :
    EndsSound P (doCreate fullNameHash k dir entry mode hardlink) m := by
  apply (createTarget_ends hk hm hapart).bind
  · intro err m₁ h
    exact h.sound
  intro target m₁ h
  simp only [ends_update_bind, ends_pure]
  split_ifs
  · exact Target.finish h hchild
  · exact (Target.dput h).finish hchild

theorem withWrite_sound {α : Type} {call : Call α} (hm : m.Sound P)
    (hcall : k.wantWrite = 0 → EndsSound P call m.wantWrite) : EndsSound P (withWrite k call) m := by
  unfold withWrite
  split_ifs with hwant
  · apply ends_update_bind.mpr
    apply ends_thenAlways.mpr
    apply (hcall hwant).mono
    intro r m₁ h
    exact h.setWriters _
  · exact ends_fail.mpr hm

/-! Looking up -/

/-- What `defuse_lookup` leaves and returns before it attaches the inode. -/
structure Looked (P : Placement) (entry : ℕ) (m : State) (r : Except ℤ (Option ℕ)) (m₁ : State) :
    Prop where
  sound : m₁.Sound P
  dcache : m₁.dcache = m.dcache
  owns : ∀ i, r = .ok (some i) → Owns P entry m₁ i

/-- The lookup gets as far as `defuse_iget`. -/
def lookupAsks (k : Kernel) (entry : ℕ) (flags : LookupFlags) (m : State) : Bool :=
  !flags.create ||
    match resolveDentry k (some entry) m with
    | .ok (.ok (some b), m₁) => (m₁.dInode k b.dentry).isSome
    | _ => false

theorem Owns.setBDentry {j : ℕ} (h : Owns P entry m i) (b : Held) :
    Owns P entry (m.setBDentry j b) i := by
  refine ⟨h.lt, ?_⟩
  rw [State.pDentry_setBDentry]
  exact h.own

theorem lookupCreate_ends {flags : LookupFlags} (hk : P.Finds k) (hm : m.Sound P)
    (hapart : lookupAsks k entry flags m → Apart P m dir entry) :
    (lookupCreate fullNameHash k dir entry).Ends m (Looked P entry m) := by
  apply (resolveDentry_gives hk hm entry).with_run.bind
  intro found m₁ h
  obtain ⟨hrun, h⟩ := h
  have hd := h.extended.dcache
  cases found with
  | none => exact ends_fail.mpr ⟨h.sound, hd, fun _ hi => nomatch hi⟩
  | some b =>
    have hlt := (h.new b rfl).lt
    have hput : ∀ {r : Except ℤ (Option ℕ)}, (∀ i, r ≠ .ok (some i)) →
        Looked P entry m r (m₁.dput b) := by
      intro r hr
      refine ⟨h.sound.dput hlt, ?_, fun i hi => absurd hi (hr i)⟩
      rw [State.dput_same]
      exact hd
    rw [ends_read_bind]
    split
    · rw [ends_update_bind, ends_pure]
      exact hput fun i hi => nomatch hi
    · rename_i mode hmode
      have hasks : lookupAsks k entry flags m := by
        simp [lookupAsks, hrun, hmode]
      rw [ends_read_bind]
      apply (iget_obtains h.sound ((hapart hasks).of_extends h.extended)).bind
      intro inode m₂ hgot
      cases inode with
      | none =>
        rw [hgot.none rfl, ends_update_bind, ends_fail]
        exact hput fun i hi => nomatch hi
      | some i =>
        have howns := hgot.owns i rfl
        rw [ends_update_bind, ends_pure]
        refine ⟨?_, ?_, ?_⟩
        · apply hgot.sound.setOwn howns _ (h.place b rfl)
          rw [hgot.same]
          exact hlt
        · change m₂.dcache = m.dcache
          rw [hgot.same]
          exact hd
        · intro j hj
          cases hj
          exact howns.setBDentry b

theorem lookupDelayed_ends {flags : LookupFlags} (hm : m.Sound P) (hapart : Apart P m dir entry) :
    (lookupDelayed fullNameHash k dir entry flags).Ends m (Looked P entry m) := by
  rw [lookupDelayed, ends_read_bind]
  apply (iget_obtains hm hapart).bind
  intro inode m₁ hgot
  cases inode with
  | none =>
    rw [hgot.none rfl, ends_fail]
    exact ⟨hm, rfl, fun _ hi => nomatch hi⟩
  | some i =>
    rw [ends_pure]
    refine ⟨hgot.sound, by rw [hgot.same], ?_⟩
    intro j hj
    cases hj
    exact hgot.owns i rfl

def MoveFits (P : Placement) (t : Dcache) (entry : ℕ) (moved : Dcache) : Prop :=
  ∀ a, P.Same a entry → ¬ (t.parent a = t.parent entry ∧ t.name a = t.name entry) →
    P.Tree moved ∧ ∀ d, moved.path d = [] → t.path d = []

theorem State.mem_of_findAlias {a : ℕ} (h : m.findAlias i = some a) : (a, i) ∈ m.dentries := by
  unfold State.findAlias at h
  obtain ⟨p, hp, rfl⟩ := Option.map_eq_some_iff.mp h
  have hi : p.2 = i := by simpa using List.find?_some hp
  rw [← hi]
  exact List.mem_of_find?_eq_some hp

theorem spliceAlias_sound {inode : Option ℕ} (hm : m.Sound P)
    (howns : ∀ i, inode = some i → Owns P entry m i) (hchild : m.dcache.path entry ≠ [])
    (hmove : MoveFits P m.dcache entry moved) : EndsSound P (spliceAlias moved inode entry) m := by
  unfold spliceAlias
  split
  · exact ends_pure.mpr hm
  · rename_i i
    rw [EndsSound, ends_update]
    split
    · exact hm.instantiate (howns i rfl) fun hroot => absurd hroot hchild
    · rename_i a ha
      split_ifs with hplace
      · exact hm
      · have halias : m.findAlias i = some a := by
          split_ifs at ha
          exact ha
        -- both entries stand where the one does that the inode was made for
        obtain ⟨p, hp, hsame⟩ := hm.own _ (State.mem_of_findAlias halias)
        obtain ⟨p', hp', hsame'⟩ := (howns i rfl).own
        rw [hp'] at hp
        cases hp
        have hmoved := hmove a (P.same.trans (P.same.symm hsame) hsame') hplace
        exact hm.move hmoved.1 hmoved.2

theorem lookup_sound {flags : LookupFlags} (hk : P.Finds k) (hm : m.Sound P)
    (hapart : lookupAsks k entry flags m → Apart P m dir entry)
    (hchild : m.dcache.path entry ≠ []) (hmove : MoveFits P m.dcache entry moved) :
    EndsSound P (lookup fullNameHash k dir entry flags moved) m := by
  have hlooked : (lookupInode fullNameHash k dir entry flags).Ends m (Looked P entry m) := by
    unfold lookupInode
    split_ifs with hflags
    · exact lookupCreate_ends hk hm hapart
    · exact lookupDelayed_ends hm (hapart (by simp [lookupAsks, hflags]))
  apply hlooked.bind
  · intro err m₁ h
    exact h.sound
  · intro inode m₁ h
    apply spliceAlias_sound h.sound
    · intro i hi
      exact h.owns i (by rw [hi])
    · rw [h.dcache]
      exact hchild
    · rw [h.dcache]
      exact hmove

/-! Mounting -/

theorem State.setPDentry_allocInode (m : State) (sb hash : ℕ) (mode : UInt16) (d : ℕ) :
    (m.allocInode sb hash mode none).setPDentry m.fresh d = m.allocInode sb hash mode (some d) := by
  simp [State.setPDentry, State.allocInode]

theorem mountBackend_sound {data : MountData} {path : Held} (hm : m.Sound P)
    (hpath : ∀ r, path.ref = some r → r < m.taken.length) (hat : P.At data.root path) :
    EndsSound P (mountBackend fullNameHash k data mode path) m := by
  rw [mountBackend, EndsSound, ends_read_bind]
  apply (iget_gives fullNameHash hm _ _ _).bind
  intro found m₁ hgot
  cases hgot with
  | none =>
    rw [ends_update_bind, ends_fail]
    exact hm.dput hpath
  | found i hmatch =>
    obtain ⟨d, -, hd, -⟩ := hmatch.name
    cases hd
  | new hash =>
    dsimp only
    split_ifs
    · simp only [ends_update_bind, ends_update]
      have halloc := hm.allocInode (m.dcache.sb data.root) hash (S_IFDIR ||| mode) data.root
      have howns : Owns P data.root (m.allocInode (m.dcache.sb data.root) hash (S_IFDIR ||| mode)
          (some data.root)) m.fresh :=
        ⟨Nat.lt_succ_self _, data.root, by simp [State.allocInode], P.same.refl _⟩
      have hset := halloc.setOwn howns hpath hat
      have hroot := hset.instantiate (howns.setBDentry path)
        fun _ => by rw [State.bDentry_setBDentry, if_pos rfl]; simp
      rw [← State.setPDentry_allocInode] at hroot
      exact hroot.dput hpath
    · rw [ends_update_bind, ends_update_bind, ends_fail]
      refine State.Sound.dput ?_ hpath
      apply hm.newInode _ rfl
      intro i hi
      simp only [State.allocInode, List.erase_cons_head] at hi
      exact .inr hi

theorem fillSuper_sound {data : MountData} (hm : m.Sound P)
    (hat : ∀ d, data.kernPath = .ok d → ∀ r, P.At data.root ⟨.backend d, some r⟩) :
    EndsSound P (fillSuper fullNameHash k data) m := by
  unfold fillSuper
  split_ifs
  · split
    · exact ends_fail.mpr hm
    · exact ends_fail.mpr hm
    · rename_i d _ hd
      have htake := hm.take (.backend d)
      have hlt : ∀ r, (⟨.backend d, some m.taken.length⟩ : Held).ref = some r →
          r < (m.take (.backend d)).taken.length := by
        intro r hr
        cases hr
        simp [State.take]
      rw [EndsSound, ends_read_bind, ends_update_bind]
      split_ifs
      · exact mountBackend_sound htake hlt (hat d hd _)
      · rw [ends_update_bind, ends_fail]
        exact htake.dput hlt
  · exact ends_fail.mpr hm

/-! The calls of the VFS -/

/-- The directory and the entry for which a call gets an inode. -/
def EntryCall.asks (m : State) : EntryCall → Option (ℕ × ℕ)
  | .mount _ _ => none
  | .lookup k entry flags _ =>
    if (m.inodeOf entry).isNone ∧ lookupAsks k entry flags m then
      (m.inodeOf (m.dcache.parent entry)).map fun dir => (dir, entry)
    else none
  | .create k entry what =>
    (m.inodeOf (m.dcache.parent entry)).bind fun dir =>
      if (m.inodeOf entry).isNone ∧ k.wantWrite = 0 ∧
          createAsks k dir entry (what.object m).2 m.wantWrite then
        some (dir, entry)
      else none

/-- What the kernel around a call has to do for the places to be right. -/
def EntryCall.Placed (P : Placement) (t : Dcache) : EntryCall → Prop
  | .mount _ data => ∀ d, data.kernPath = .ok d → t.path data.root = [] →
    ∀ r, P.At data.root ⟨.backend d, some r⟩
  | .lookup k entry _ moved => P.Finds k ∧ MoveFits P t entry moved
  | .create k _ _ => P.Finds k

structure EntryCall.Fits (P : Placement) (m : State) (call : EntryCall) : Prop where
  apart : ∀ dir entry, call.asks m = some (dir, entry) → Apart P m dir entry
  placed : call.Placed P m.dcache

theorem EndsSound.inDirectory {call : ℕ → Call Unit} (hm : m.Sound P)
    (hcall : ∀ dir, m.inodeOf (m.dcache.parent entry) = some dir → EndsSound P (call dir) m) :
    EndsSound P (WrapModule.inDirectory entry call) m := by
  rw [WrapModule.inDirectory, EndsSound, ends_read_bind]
  split
  · exact ends_pure.mpr hm
  · rename_i dir hdir
    exact hcall dir hdir

theorem path_ne_nil (hdir : m.inodeOf (m.dcache.parent entry) = some dir)
    (hnone : (m.inodeOf entry).isNone) : m.dcache.path entry ≠ [] := by
  intro hroot
  rw [(m.dcache.of_root entry hroot).1] at hdir
  rw [hdir] at hnone
  cases hnone

theorem EntryCall.exec_sound (hm : m.Sound P) (call : EntryCall) (hfits : call.Fits P m) :
    EndsSound P (call.exec fullNameHash) m := by
  cases call with
  | mount k data =>
    rw [EntryCall.exec, EndsSound, ends_read_bind]
    split
    · rename_i hroot
      simp only [Bool.and_eq_true, List.isEmpty_iff] at hroot
      exact fillSuper_sound hm fun d hd r => hfits.placed d hd hroot.1 r
    · exact ends_pure.mpr hm
  | lookup k entry flags moved =>
    apply EndsSound.inDirectory hm
    intro dir hdir
    rw [EndsSound, ends_read_bind]
    split
    · rename_i hnone
      apply lookup_sound hfits.placed.1 hm _ (path_ne_nil hdir hnone) hfits.placed.2
      intro hasks
      exact hfits.apart dir entry (by simp [EntryCall.asks, hnone, hasks, hdir])
    · exact ends_pure.mpr hm
  | create k entry what =>
    apply EndsSound.inDirectory hm
    intro dir hdir
    rw [EndsSound, ends_read_bind]
    split
    · rename_i hnone
      rw [ends_read_bind]
      apply EndsSound.bind
      · apply withWrite_sound hm
        intro hwant
        apply doCreate_sound hfits.placed hm.wantWrite _ (path_ne_nil hdir hnone)
        intro hasks
        change createAsks k dir entry (what.object m).2 m.wantWrite at hasks
        exact hfits.apart dir entry (by simp [EntryCall.asks, hnone, hwant, hasks, hdir])
      · intro _ m₁ hm₁
        exact ends_pure.mpr hm₁
    · exact ends_pure.mpr hm

theorem returnErr_sound (hm : m.Sound P) (err : ℤ) : EndsSound P (returnErr err) m := by
  unfold returnErr
  split_ifs
  · exact ends_pure.mpr hm
  · exact ends_fail.mpr hm

theorem access_sound (hk : P.Finds k) (hm : m.Sound P) (inode : Option ℕ) :
    EndsSound P (getBDentryResolved k inode) m :=
  (getBDentryResolved_ends hk hm inode).mono fun _ _ h => h.sound

theorem doDelete_sound (hk : P.Finds k) (hm : m.Sound P) :
    EndsSound P (doDelete k dir entry) m := by
  apply (access_sound hk hm _).bind
  intro _ m₁ hm₁
  rw [EndsSound, ends_read_bind]
  apply (access_sound hk hm₁ _).bind
  intro b m₂ hm₂
  rw [EndsSound, ends_read_bind]
  exact returnErr_sound hm₂ _

theorem renameBackend_sound {bOldent : Held} (hm : m.Sound P)
    (hb : ∀ r, b.ref = some r → r < m.taken.length) (htree : P.Tree moved)
    (hroots : ∀ d, moved.path d = [] → m.dcache.path d = []) :
    EndsSound P (renameBackend k bOldent b moved) m := by
  have hput := hm.dput hb
  have hroots' : ∀ d, moved.path d = [] → (m.dput b).dcache.path d = [] := by
    rw [State.dput_same]
    exact hroots
  unfold renameBackend
  split_ifs
  · rw [EndsSound, ends_update_bind, ends_fail]
    exact hput
  · rw [EndsSound, ends_update_bind, ends_fail]
    exact hput
  · rw [EndsSound, ends_update_bind]
    unfold returnErr
    split_ifs
    · rw [ends_bind, ends_pure, ends_update]
      exact hput.move htree hroots'
    · rw [ends_bind, ends_fail]
      exact hput

theorem rename_sound {oldent newent : ℕ} (hk : P.Finds k) (hm : m.Sound P) (htree : P.Tree moved)
    (hroots : ∀ d, moved.path d = [] → m.dcache.path d = []) :
    EndsSound P (rename k oldent newent moved) m := by
  -- the trees stay as they are up to the end
  have haccess : ∀ m₁ : State, m₁.Sound P ∧ m₁.dcache = m.dcache → ∀ inode,
      (getBDentryResolved k inode).Ends m₁ fun _ m₂ => m₂.Sound P ∧ m₂.dcache = m.dcache := by
    intro m₁ h inode
    apply (getBDentryResolved_ends hk h.1 inode).mono
    intro r m₂ h₂
    exact ⟨h₂.sound, h₂.extended.dcache.trans h.2⟩
  unfold rename
  rw [EndsSound, ends_read_bind]
  apply (haccess m ⟨hm, rfl⟩ _).bind (fun _ _ h => h.1)
  intro _ m₁ h₁
  rw [ends_read_bind]
  apply (haccess m₁ h₁ _).bind (fun _ _ h => h.1)
  intro bOldent m₂ h₂
  rw [ends_read_bind]
  apply (haccess m₂ h₂ _).bind (fun _ _ h => h.1)
  intro _ m₃ h₃
  apply (resolveDentry_gives hk h₃.1 newent).bind
  intro found m₄ h₄
  cases found with
  | none => exact ends_fail.mpr h₄.sound
  | some b =>
    apply renameBackend_sound h₄.sound (h₄.new b rfl).lt htree
    rw [h₄.extended.dcache, h₃.2]
    exact hroots

theorem readBackend_sound (hk : P.Finds k) (hm : m.Sound P) (call : VfsCall) :
    EndsSound P (readBackend k call entry) m := by
  rw [readBackend, EndsSound, ends_read_bind]
  apply (access_sound hk hm _).bind
  intro b m₁ hm₁
  rw [EndsSound, ends_read_bind]
  split_ifs
  · exact ends_fail.mpr hm₁
  · exact returnErr_sound hm₁ _

theorem changeBackend_sound (hk : P.Finds k) (hm : m.Sound P) (call : VfsCall) :
    EndsSound P (changeBackend k call entry) m := by
  rw [changeBackend, EndsSound, ends_read_bind]
  apply (access_sound hk hm _).bind
  intro b m₁ hm₁
  exact withWrite_sound hm₁ fun _ => returnErr_sound hm₁.wantWrite _

theorem readlink_sound (hk : P.Finds k) (hm : m.Sound P) : EndsSound P (readlink k entry) m := by
  rw [readlink, EndsSound, ends_read_bind]
  apply (access_sound hk hm _).bind
  intro b m₁ hm₁
  rw [EndsSound, ends_read_bind]
  split_ifs
  · exact ends_fail.mpr hm₁
  · exact returnErr_sound hm₁ _
  · exact ends_fail.mpr hm₁

theorem AttributeCall.exec_sound (hk : P.Finds k) (hm : m.Sound P) (call : AttributeCall) :
    EndsSound P (call.exec k entry) m := by
  cases call with
  | getattr => exact readBackend_sound hk hm _
  | getxattr => exact readBackend_sound hk hm _
  | listxattr => exact readBackend_sound hk hm _
  | readlink => exact readlink_sound hk hm
  | setattr => exact changeBackend_sound hk hm _
  | setxattr => exact changeBackend_sound hk hm _
  | removexattr => exact changeBackend_sound hk hm _

def Event.Fits (P : Placement) (m : State) : Event → Prop
  | .named call => call.Fits P m
  | .delete k _ | .attributes k _ _ => P.Finds k
  | .rename k _ _ moved =>
    P.Finds k ∧ P.Tree moved ∧ ∀ d, moved.path d = [] → m.dcache.path d = []
  | .dropEntry _ | .destroyInode _ | .unmount _ => True

theorem Event.exec_sound (fullNameHash : Seg → ℕ) (hm : m.Sound P) (e : Event)
    (hfits : e.Fits P m) : EndsSound P (e.exec fullNameHash) m := by
  cases e with
  | named call => exact call.exec_sound hm hfits
  | delete k entry =>
    apply EndsSound.inDirectory hm
    intro dir _
    exact withWrite_sound hm fun _ => doDelete_sound hfits hm.wantWrite
  | rename k oldent newent moved => exact rename_sound hfits.1 hm hfits.2.1 hfits.2.2
  | attributes k entry call => exact call.exec_sound hfits hm
  | dropEntry entry =>
    rw [Event.exec, EndsSound, ends_update]
    exact hm.shrink (fun p hp => List.mem_of_mem_filter hp) fun _ hi => hi
  | destroyInode i =>
    rw [Event.exec, EndsSound, ends_update]
    split_ifs
    · exact hm.iCallback i
    · exact hm
  | unmount sb =>
    rw [Event.exec, EndsSound, ends_update]
    exact hm.killSb sb

theorem step_sound (hm : m.Sound P) (e : Event) (hfits : e.Fits P m) :
    ∃ m₁, step fullNameHash m e = .ok m₁ ∧ m₁.Sound P := by
  obtain ⟨r, m₁, hrun, h⟩ := e.exec_sound fullNameHash hm hfits
  exact ⟨m₁, by rw [step, hrun]; rfl, h⟩

theorem loaded_sound {t : Dcache} (ht : P.Tree t) : (State.loaded t).Sound P where
  tree := ht
  roots := fun _ hp => nomatch hp
  numbers := fun _ hp => nomatch hp
  live := fun _ hi => nomatch hi
  named := fun _ hi => nomatch hi
  stored := fun _ _ _ hb => nomatch hb
  released := fun _ hr => nomatch hr
  own := fun _ hp => nomatch hp
  placed := fun _ _ _ hd => nomatch hd

theorem run_sound {t : Dcache} (ht : P.Tree t) (events : List Event)
    (hfits : ∀ pre e, pre ++ [e] <+: events →
      ∀ m, run (step fullNameHash) (State.loaded t) pre = .ok m → e.Fits P m) :
    ∃ m, run (step fullNameHash) (State.loaded t) events = .ok m ∧ m.Sound P := by
  apply run_guarded (State.Sound P) (fun m e => e.Fits P m) _ (loaded_sound ht) events hfits
  intro m e hm he
  exact step_sound hm e he

end Defuse.WrapModule
