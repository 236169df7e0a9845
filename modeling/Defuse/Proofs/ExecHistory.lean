import Defuse.Lib.Runs
import Defuse.Spec.Processes
import Defuse.Proofs.SaveRestore
import Defuse.Proofs.TableMap

/-! What a new image finds. The file of a pid is written when a table with entries is
saved and never removed, so it speaks for the last such table, which need not be the
table of the image that is being replaced. -/

namespace Defuse

open CSem FileHandleTable

variable {mounts : List MountPointData} {t : FileHandleTable}

theorem mountPointFileSize_add (mounts : List MountPointData) :
    mountPointFileSize mounts + mounts.length = 8 + mountsSize mounts := by
  unfold mountPointFileSize mountsSize
  induction mounts with
  | nil => rfl
  | cons mp ms ih =>
    simp only [List.map_cons, List.sum_cons, List.length_cons]
    omega

theorem sharedSpaceSize_eq (h : ListsTracked t) (hsize : (spaceNeeded mounts t : ℤ) ≤ INT_MAX) :
    sharedSpaceSize mounts t = spaceNeeded mounts t - mounts.length := by
  have hsum := mountPointFileSize_add mounts
  have hpos : asU64 t.usedFileDescriptorPos = t.usedFileDescriptorPos.toNat := by
    have h0 := h.pos_nonneg
    have hle : t.usedFileDescriptorPos ≤ 1024 := h.pos_le
    unfold asU64
    omega
  unfold sharedSpaceSize
  rw [hpos, asInt_of_le] <;> unfold spaceNeeded at * <;> omega

def Fits (mounts : List MountPointData) (t : FileHandleTable) : Prop :=
  (spaceNeeded mounts t : ℤ) ≤ INT_MAX ∧
    spaceNeeded mounts t ≤ pageRound (sharedSpaceSize mounts t).toNat

instance (mounts : List MountPointData) (t : FileHandleTable) : Decidable (Fits mounts t) := by
  unfold Fits
  infer_instance

theorem at_resize {bytes front : List UInt8} {size k : ℕ} (hk : k ≤ 7)
    (hlen : bytes.length = size + k) (htail : bytes = front ++ List.replicate 7 0)
    (hpage : bytes.length ≤ pageRound size) :
    At (resize (pageRound size) (bytes.take size)) 0 bytes := by
  have hdrop : bytes.drop size = List.replicate k 0 := by
    have hf : front.length + 7 = size + k := by
      rw [← hlen, htail, List.length_append, List.length_replicate]
    rw [htail, List.drop_append, List.drop_eq_nil_of_le (by omega), List.nil_append,
      List.drop_replicate]
    congr 1
    omega
  refine ⟨[], List.replicate (pageRound size - size - k) 0, ?_, rfl⟩
  have htake : (bytes.take size).length = size := by simp; omega
  unfold resize
  rw [htake, List.take_of_length_le (by omega),
    show pageRound size - size = k + (pageRound size - size - k) by omega, List.replicate_add,
    ← hdrop]
  simp [← List.append_assoc]

theorem initSharedSpace_mapped (old : Option (List UInt8)) {size : ℕ} (h : 0 < size) :
    initSharedSpace old size .mapped =
      (some (resize size (old.getD [])), some (pageRound size)) := by
  unfold initSharedSpace
  simp only [Int.toNat_natCast]
  rw [if_neg (by omega), if_neg (by omega)]

theorem ListsTracked.asU64_pos (h : ListsTracked t) :
    asU64 t.usedFileDescriptorPos > 0 ↔ t.usedFileDescriptorPos ≠ 0 := by
  have h0 := h.pos_nonneg
  have hle : t.usedFileDescriptorPos ≤ 1024 := h.pos_le
  unfold asU64
  omega

/-- A save of a table with entries keeps all but the last bytes in the file. -/
theorem saveToFile_mapped (hM : Mounted mounts) (h : ListsTracked t) (ht : OnMounts mounts t)
    (hpos : t.usedFileDescriptorPos ≠ 0) (hfits : Fits mounts t) (old : Option (List UInt8)) :
    ∃ bytes size, savedBytes mounts t = .ok bytes ∧ 0 < size ∧
      bytes.length = size + mounts.length ∧ bytes.length ≤ pageRound size ∧
      saveToFile mounts t old .mapped = .ok (some (bytes.take size)) := by
  obtain ⟨bytes, hsave, hlen, -, -⟩ := restore_saved hM h ht hfits.1
  have hle := length_le_mountsSize mounts
  have hneed : 16 + mountsSize mounts ≤ spaceNeeded mounts t := by
    unfold spaceNeeded
    omega
  obtain ⟨size, hsz⟩ : ∃ size : ℕ, sharedSpaceSize mounts t = size := by
    rw [sharedSpaceSize_eq h hfits.1]
    exact ⟨spaceNeeded mounts t - mounts.length, by omega⟩
  have hsize := sharedSpaceSize_eq h hfits.1
  have hfit : bytes.length ≤ pageRound size := by
    have hpage := hfits.2
    rwa [hsz, Int.toNat_natCast, ← hlen] at hpage
  have hfile : storeBytes bytes (resize size (old.getD [])) = bytes.take size := by
    have hl : (resize size (old.getD [])).length = size := by
      simp only [resize, List.length_append, List.length_take, List.length_replicate]
      omega
    unfold storeBytes
    rw [hl, List.drop_eq_nil_of_le (by omega), List.append_nil]
  refine ⟨bytes, size, hsave, by omega, by omega, hfit, ?_⟩
  unfold saveToFile
  rw [hsz, initSharedSpace_mapped old (by omega)]
  simp only [saveFileHandlesToSharedSpace, h.asU64_pos.mpr hpos, if_true, hsave, ok_bind, hfit,
    pure_eq_ok, Option.map_some, hfile]

theorem save_then_start (hM : Mounted mounts) (h : ListsTracked t) (ht : OnMounts mounts t)
    (hpos : t.usedFileDescriptorPos ≠ 0) (hfits : Fits mounts t) (hseven : mounts.length ≤ 7)
    (old : Option (List UInt8)) :
    ∃ file t', saveToFile mounts t old .mapped = .ok file ∧ startImage mounts file = .ok t' ∧
      Sound t' ∧ DenseList t' ∧ ∀ j, t'.lookup j = (t.lookup j).map (rehomed mounts) := by
  obtain ⟨bytes, size, hsave, hsize, hlen, hfit, hfile⟩ :=
    saveToFile_mapped hM h ht hpos hfits old
  obtain ⟨bytes', hsave', -, htail, hread⟩ := restore_saved hM h ht hfits.1
  rw [hsave] at hsave'
  cases hsave'
  obtain ⟨front, hfront⟩ := htail hpos (by omega)
  obtain ⟨t', hrun, hs, hd, hlook⟩ := hread _ (at_resize hseven hlen hfront hfit)
  refine ⟨_, t', hfile, ?_, hs, hd, hlook⟩
  have hlt : (bytes.take size).length = size := by simp; omega
  have hne : bytes.take size ≠ [] := by
    intro he
    rw [he, List.length_nil] at hlt
    omega
  unfold startImage getSharedSpace
  simp only [hne, if_false, hlt, hrun]

theorem saveToFile_empty (h0 : t.usedFileDescriptorPos = 0) (file : Option (List UInt8))
    (o : InitOutcome) : saveToFile mounts t file o = .ok file := by
  have hu : asU64 t.usedFileDescriptorPos = 0 := by rw [h0]; rfl
  unfold saveToFile saveFileHandlesToSharedSpace
  simp [hu]

theorem saveToFile_unmapped {o : InitOutcome} (ho : o ≠ .mapped) (file : Option (List UInt8)) :
    ∃ file', saveToFile mounts t file o = .ok file' := by
  have hroom : (initSharedSpace file (sharedSpaceSize mounts t) o).2 = none := by
    cases o with
    | mapped => exact absurd rfl ho
    | openFails => rfl
    | ftruncateFails => rfl
    | mmapFails => rfl
  unfold saveToFile saveFileHandlesToSharedSpace
  simp only [hroom]
  split_ifs
  · exact ⟨_, rfl⟩
  · exact ⟨_, rfl⟩

/-- What is known of a running image. -/
structure ImageOk (mounts : List MountPointData) (t : FileHandleTable) : Prop where
  sound : Sound t
  dense : DenseList t
  onMounts : OnMounts mounts t

def WorldOk (mounts : List MountPointData) (w : World) : Prop :=
  ∀ pid t, w.images pid = some t → ImageOk mounts t

def Event.InRange (mounts : List MountPointData) : Event → Prop
  | .call _ c => c.InRange ∧ ∀ fd fhd, c = .insert fd fhd → fhd.mount < mounts.length
  | _ => True

/-- The condition on a step. A start needs a pid without a file. The exec of an image
without entries needs that too, since it writes nothing; with entries the save has to
reach the file whole, and no entry may be shadowed. -/
def StepSafe (mounts : List MountPointData) (w : World) : Event → Prop
  | .start pid => w.images pid = none → w.files pid = none
  | .call pid c => ∀ t, w.images pid = some t → RemovalSafe t c
  | .exec pid o replaced => ∀ t, w.images pid = some t →
    (t.usedFileDescriptorPos = 0 → replaced = true → w.files pid = none) ∧
    (t.usedFileDescriptorPos ≠ 0 → o = .mapped → Fits mounts t) ∧
    (t.usedFileDescriptorPos ≠ 0 → replaced = true →
      o = .mapped ∧ mounts.length ≤ 7 ∧ Unshadowed mounts t)
  | .exit _ => True
  | .fork _ _ => True

/-- The law: a fresh process starts with an empty table, and an image that was put in
place by exec starts with the table of the image it replaced. -/
def Inherits (w : World) (e : Event) (w' : World) : Prop :=
  match e with
  | .start pid => w.images pid = none →
    ∃ t', w'.images pid = some t' ∧ ∀ i, t'.lookup i = none
  | .exec pid _ replaced => ∀ t, w.images pid = some t → replaced = true →
    ∃ t', w'.images pid = some t' ∧ ∀ i, t'.lookup i = t.lookup i
  | _ => True

theorem onMounts_of_lookup (hs : Sound t)
    (h : ∀ i d, t.lookup i = some d → d.mount < mounts.length) : OnMounts mounts t := by
  intro i p hp
  obtain ⟨r, hr, -⟩ := hs.live hp
  exact ⟨r, hr, h i r.fData (lookup_of_some hp hr)⟩

theorem zeroed_imageOk : ImageOk mounts zeroed where
  sound := zeroed_sound
  dense := zeroed_dense
  onMounts := by
    intro i p hp
    cases hp

/-- A call on the table of an image. -/
theorem call_imageOk (h : ImageOk mounts t) {c : Call} (hc : c.InRange)
    (hm : ∀ fd fhd, c = .insert fd fhd → fhd.mount < mounts.length) (hsafe : RemovalSafe t c) :
    ∃ t', c.exec t = .ok t' ∧ ImageOk mounts t' := by
  obtain ⟨t', heq, hs⟩ := exec_sound h.sound c hc
  refine ⟨t', heq, hs, (exec_dense_iff h.sound h.dense hc heq).mpr hsafe, ?_⟩
  apply onMounts_of_lookup hs
  have hold : ∀ {i d}, t.lookup i = some d → d.mount < mounts.length := h.onMounts.mount_lt
  intro j d hd
  rw [lookup_exec h.sound c hc heq] at hd
  cases c with
  | insert fd fhd =>
    simp only [Call.onMap] at hd
    split_ifs at hd with hj
    · rcases Option.or_eq_some_iff.mp hd with h1 | ⟨-, h2⟩
      · exact hold h1
      · cases h2
        exact hm fd _ rfl
    · exact hold hd
  | remove fd =>
    simp only [Call.onMap] at hd
    split_ifs at hd
    exact hold hd
  | duplicate fd1 fd2 =>
    obtain ⟨i, rfl⟩ := exists_fin hc.1
    simp only [Call.onMap, index_val] at hd
    split_ifs at hd
    · rcases Option.or_eq_some_iff.mp hd with h1 | ⟨-, h2⟩
      · exact hold h1
      · exact hold h2
    · exact hold hd

theorem Unshadowed.map_rehomed (hu : Unshadowed mounts t) (ht : OnMounts mounts t)
    (i : Fin MAX_FILES) : (t.lookup i).map (rehomed mounts) = t.lookup i := by
  cases hi : t.lookup i with
  | none => rfl
  | some d =>
    have hm := (rehomed_mount_iff (ht.mount_lt hi)).mpr (hu i d hi)
    have hd : rehomed mounts d = d := by
      obtain ⟨fh, m⟩ := d
      simp only [rehomed] at hm ⊢
      rw [hm]
    rw [Option.map_some, hd]

section Steps

variable {w : World}

theorem WorldOk.setImage (hw : WorldOk mounts w) (pid : ℕ) {image : Option FileHandleTable}
    (h : ∀ t, image = some t → ImageOk mounts t) : WorldOk mounts (w.setImage pid image) := by
  intro pid' t ht
  simp only [World.setImage] at ht
  by_cases hp : pid' = pid
  · rw [hp, Function.update_self] at ht
    exact h t ht
  · rw [Function.update_of_ne hp] at ht
    exact hw pid' t ht

/-- The table an exec hands over, and the file it leaves. -/
theorem exec_hands_over (hM : Mounted mounts) (h : ImageOk mounts t) {file : Option (List UInt8)}
    {o : InitOutcome} (hempty : t.usedFileDescriptorPos = 0 → file = none)
    (hfits : t.usedFileDescriptorPos ≠ 0 →
      o = .mapped ∧ Fits mounts t ∧ mounts.length ≤ 7 ∧ Unshadowed mounts t) :
    ∃ file' t', saveToFile mounts t file o = .ok file' ∧ startImage mounts file' = .ok t' ∧
      ImageOk mounts t' ∧ ∀ i, t'.lookup i = t.lookup i := by
  by_cases h0 : t.usedFileDescriptorPos = 0
  · refine ⟨file, zeroed, saveToFile_empty h0 file o, ?_, zeroed_imageOk, ?_⟩
    · rw [hempty h0]
      rfl
    · intro i
      rw [h.dense.lookup_none h0]
      rfl
  · obtain ⟨rfl, hfit, hseven, hu⟩ := hfits h0
    obtain ⟨file', t', hsave, hstart, hs, hd, hlook⟩ :=
      save_then_start hM h.dense.toListsTracked h.onMounts h0 hfit hseven file
    have hsame : ∀ i, t'.lookup i = t.lookup i := by
      intro i
      rw [hlook, hu.map_rehomed h.onMounts]
    refine ⟨file', t', hsave, hstart, ⟨hs, hd, ?_⟩, hsame⟩
    apply onMounts_of_lookup hs
    intro i d hi
    rw [hsame] at hi
    exact h.onMounts.mount_lt hi

theorem saveToFile_ends (hM : Mounted mounts) (h : ImageOk mounts t) {o : InitOutcome}
    (hfits : t.usedFileDescriptorPos ≠ 0 → o = .mapped → Fits mounts t)
    (file : Option (List UInt8)) : ∃ file', saveToFile mounts t file o = .ok file' := by
  by_cases h0 : t.usedFileDescriptorPos = 0
  · exact ⟨_, saveToFile_empty h0 file o⟩
  by_cases ho : o = .mapped
  · subst ho
    obtain ⟨_, _, -, -, -, -, hfile⟩ := saveToFile_mapped hM h.dense.toListsTracked
      h.onMounts h0 (hfits h0 rfl) file
    exact ⟨_, hfile⟩
  · exact saveToFile_unmapped ho file

abbrev StepInherits (mounts : List MountPointData) (w : World) (e : Event) : Prop :=
  ∃ w', w.step mounts e = .ok w' ∧ WorldOk mounts w' ∧ Inherits w e w'

theorem start_inherits (hw : WorldOk mounts w) {pid : ℕ} (hsafe : StepSafe mounts w (.start pid)) :
    StepInherits mounts w (.start pid) := by
  cases hp : w.images pid with
  | some t =>
    refine ⟨w, by simp [World.step, hp], hw, ?_⟩
    intro hnone
    rw [hp] at hnone
    cases hnone
  | none =>
    have hfile := hsafe hp
    refine ⟨w.setImage pid (some zeroed), ?_, hw.setImage pid ?_, ?_⟩
    · simp [World.step, hp, hfile, startImage, getSharedSpace, restoreFileHandlesFromSharedSpace]
    · intro t ht
      cases ht
      exact zeroed_imageOk
    · intro _
      exact ⟨zeroed, by simp [World.setImage], fun _ => rfl⟩

theorem exec_inherits (hM : Mounted mounts) (hw : WorldOk mounts w) {pid : ℕ} {o : InitOutcome}
    {replaced : Bool} (hsafe : StepSafe mounts w (.exec pid o replaced)) :
    StepInherits mounts w (.exec pid o replaced) := by
  cases hp : w.images pid with
  | none =>
    refine ⟨w, by simp [World.step, hp], hw, ?_⟩
    intro t ht
    rw [hp] at ht
    cases ht
  | some t =>
    obtain ⟨hempty, hfits, hfull⟩ := hsafe t hp
    have hok := hw pid t hp
    cases replaced with
    | true =>
      obtain ⟨file, t', hsave, hstart, hok', hsame⟩ := exec_hands_over hM hok
        (fun h0 => hempty h0 rfl)
        (fun h0 => ⟨(hfull h0 rfl).1, hfits h0 (hfull h0 rfl).1, (hfull h0 rfl).2⟩)
      refine ⟨(w.setFile pid file).setImage pid (some t'), by simp [World.step, hp, hsave, hstart],
        WorldOk.setImage (w := w.setFile pid file) hw pid ?_, ?_⟩
      · intro u hu
        cases hu
        exact hok'
      · intro u hu _
        rw [hp] at hu
        cases hu
        exact ⟨t', by simp [World.setImage], hsame⟩
    | false =>
      obtain ⟨file, hsave⟩ := saveToFile_ends hM hok hfits (w.files pid)
      refine ⟨w.setFile pid file, by simp [World.step, hp, hsave], hw, ?_⟩
      intro _ _ hfalse
      cases hfalse

/-- One step under the condition: it does not fault, the images stay sound and the law
holds for it. -/
theorem step_inherits (hM : Mounted mounts) (hw : WorldOk mounts w) {e : Event}
    (he : e.InRange mounts) (hsafe : StepSafe mounts w e) : StepInherits mounts w e := by
  cases e with
  | start pid => exact start_inherits hw hsafe
  | call pid c =>
    cases hp : w.images pid with
    | none => exact ⟨w, by simp [World.step, hp], hw, trivial⟩
    | some t =>
      obtain ⟨t', heq, ht'⟩ := call_imageOk (hw pid t hp) he.1 he.2 (hsafe t hp)
      refine ⟨w.setImage pid (some t'), by simp [World.step, hp, heq], hw.setImage pid ?_, trivial⟩
      intro u hu
      cases hu
      exact ht'
  | exec pid o replaced => exact exec_inherits hM hw hsafe
  | exit pid =>
    refine ⟨w.setImage pid none, rfl, hw.setImage pid ?_, trivial⟩
    intro t ht
    cases ht
  | fork pid child =>
    cases hp : w.images pid with
    | none => exact ⟨w, by simp [World.step, hp], hw, trivial⟩
    | some t =>
      cases hc : w.images child with
      | some u => exact ⟨w, by simp [World.step, hp, hc], hw, trivial⟩
      | none =>
        refine ⟨w.setImage child (some t), by simp [World.step, hp, hc], hw.setImage child ?_, trivial⟩
        intro u hu
        cases hu
        exact hw pid t hp

end Steps

/-- In every history whose steps meet the condition, every step succeeds and obeys the
law: fresh processes start empty, and exec passes the table on. -/
theorem tables_inherited (hM : Mounted mounts) (es : List Event)
    (hes : ∀ e ∈ es, e.InRange mounts)
    (hsafe : ∀ pre e, pre ++ [e] <+: es →
      ∀ w, run (World.step mounts) World.empty pre = .ok w → StepSafe mounts w e) :
    ∀ pre e, pre ++ [e] <+: es → ∃ w w', run (World.step mounts) World.empty pre = .ok w ∧
      w.step mounts e = .ok w' ∧ Inherits w e w' := by
  apply run_steps (WorldOk mounts) (fun w e => e.InRange mounts ∧ StepSafe mounts w e)
  · rintro w e hw ⟨he, hs⟩
    exact step_inherits hM hw he hs
  · intro pid t ht
    cases ht
  · intro pre e hpre w hw
    exact ⟨hes e (hpre.subset (by simp)), hsafe pre e hpre w hw⟩

def opened : World := World.empty.setImage 1 (some (oneEntry 0))

theorem run_opened :
    run (World.step nestedNames) World.empty [.start 1, .call 1 (.insert 5 ⟨9, 0⟩)] =
      .ok opened := by
  have hins : Call.exec zeroed (.insert 5 ⟨9, 0⟩) = .ok (oneEntry 0) := by
    have h := insert_untracked (t := zeroed) (i := 5) (n := 0) rfl rfl ⟨9, 0⟩
    rw [show (5 : ℤ) = ((5 : Fin MAX_FILES) : ℕ) from rfl]
    simp only [Call.exec, h, ok_bind, pure_eq_ok, oneEntry]
  have hstart : World.empty.step nestedNames (.start 1) =
      .ok (World.empty.setImage 1 (some zeroed)) := rfl
  have hcall : (World.empty.setImage 1 (some zeroed)).step nestedNames
      (.call 1 (.insert 5 ⟨9, 0⟩)) = .ok opened := by
    simp only [World.step, World.setImage, Function.update_self, hins, ok_bind, pure_eq_ok, opened,
      Function.update_idem]
  simp only [run, List.foldlM_cons, List.foldlM_nil, hstart, ok_bind, hcall, pure_eq_ok]

theorem oneEntry_pos (m : ℕ) : (oneEntry m).usedFileDescriptorPos = 1 := rfl

theorem oneEntry_unshadowed : Unshadowed nestedNames (oneEntry 0) := by
  intro i d hi k m mp hk
  rw [oneEntry_lookup] at hi
  split_ifs at hi
  cases hi
  exact absurd hk (Nat.not_lt_zero k)

theorem oneEntry_fits : Fits nestedNames (oneEntry 0) := by decide

/-- Process 1 starts, opens descriptor 5 and execs: the new image has it too. -/
theorem tables_inherited_once :
    ∃ w w', run (World.step nestedNames) World.empty [.start 1, .call 1 (.insert 5 ⟨9, 0⟩)] =
        .ok w ∧ w.step nestedNames (.exec 1 .mapped true) = .ok w' ∧
      Inherits w (.exec 1 .mapped true) w' := by
  refine tables_inherited nestedNames_mounted
    [.start 1, .call 1 (.insert 5 ⟨9, 0⟩), .exec 1 .mapped true] ?_ ?_ _ _ (List.prefix_refl _)
  · intro e he
    simp only [List.mem_cons, List.not_mem_nil, or_false] at he
    rcases he with rfl | rfl | rfl
    · trivial
    · refine ⟨by decide, ?_⟩
      intro fd fhd h
      cases h
      decide
    · trivial
  · refine guard_of_guarded ⟨?_, fun w₁ h₁ => ⟨?_, fun w₂ h₂ => ⟨?_, fun _ _ => trivial⟩⟩⟩
    · intro _
      rfl
    · intro t _
      trivial
    · have hopened : w₂ = opened := by
        have hrun := run_opened
        rw [run, List.foldlM_cons, h₁, ok_bind, List.foldlM_cons, h₂] at hrun
        exact Except.ok.inj hrun
      rw [hopened]
      intro t ht
      cases ht
      refine ⟨?_, fun _ _ => oneEntry_fits, fun _ _ => ⟨rfl, by decide, oneEntry_unshadowed⟩⟩
      intro h0
      rw [oneEntry_pos] at h0
      cases h0

theorem oneEntry_removed : ∃ t, Call.exec (oneEntry 0) (.remove 5) = .ok t ∧
    t.usedFileDescriptorPos = 0 ∧ ∀ i, t.lookup i = none := by
  have hs : Sound (oneEntry 0) := inserted_sound zeroed_sound rfl rfl _
  have hi : (oneEntry 0).fileHandles 5 = some 0 := by simp [oneEntry, inserted, linked, zeroed]
  obtain ⟨r, -, ⟨-, heq⟩ | ⟨-, -, h1, -⟩⟩ := remove_cases hs hi
  · refine ⟨((oneEntry 0).dropUse 0 r).unlinkedOnly 5, ?_, ?_, ?_⟩
    · rw [show (5 : ℤ) = ((5 : Fin MAX_FILES) : ℕ) from rfl]
      simp only [Call.exec, heq, ok_bind, pure_eq_ok]
    · rfl
    · intro i
      rw [lookup_remove hs heq, oneEntry_lookup]
      split_ifs <;> rfl
  · rw [oneEntry_pos] at h1
    omega

/-- Process 1 opens descriptor 5, an exec of it fails, it closes the descriptor and execs
again, now with an empty table: the new image finds descriptor 5 open. -/
theorem tables_stale_after_close :
    (∀ e ∈ [Event.start 1, .call 1 (.insert 5 ⟨9, 0⟩), .exec 1 .mapped false, .call 1 (.remove 5),
      .exec 1 .mapped true], e.InRange nestedNames) ∧
    ∃ w w' t t', run (World.step nestedNames) World.empty [.start 1,
        .call 1 (.insert 5 ⟨9, 0⟩), .exec 1 .mapped false, .call 1 (.remove 5)] = .ok w ∧
      w.step nestedNames (.exec 1 .mapped true) = .ok w' ∧
      w.images 1 = some t ∧ (∀ i, t.lookup i = none) ∧
      w'.images 1 = some t' ∧ t'.lookup 5 = some ⟨9, 0⟩ := by
  obtain ⟨file, t', hsave, hstart, -, -, hlook⟩ := save_then_start nestedNames_mounted
    (oneEntry_dense 0).toListsTracked (oneEntry_onMounts (by decide))
    (by rw [oneEntry_pos]; decide) oneEntry_fits (by decide) none
  obtain ⟨t, hrem, hpos, hnone⟩ := oneEntry_removed
  have hexec : opened.step nestedNames (.exec 1 .mapped false) = .ok (opened.setFile 1 file) := by
    simp only [World.step, opened, World.setImage, Function.update_self]
    rw [show World.empty.files 1 = none from rfl, hsave]
    rfl
  have hclose : (opened.setFile 1 file).step nestedNames (.call 1 (.remove 5)) =
      .ok ((opened.setFile 1 file).setImage 1 (some t)) := by
    simp only [World.step, opened, World.setFile, World.setImage, Function.update_self, hrem,
      ok_bind, pure_eq_ok]
  refine ⟨?_, (opened.setFile 1 file).setImage 1 (some t),
    ((opened.setFile 1 file).setImage 1 (some t)).setImage 1 (some t'), t, t', ?_, ?_, ?_, hnone, ?_,
    ?_⟩
  · intro e he
    simp only [List.mem_cons, List.not_mem_nil, or_false] at he
    rcases he with rfl | rfl | rfl | rfl | rfl
    · trivial
    · refine ⟨by decide, ?_⟩
      intro fd fhd h
      cases h
      decide
    · trivial
    · refine ⟨by decide, ?_⟩
      intro fd fhd h
      cases h
    · trivial
  · rw [show ([.start 1, .call 1 (.insert 5 ⟨9, 0⟩), .exec 1 .mapped false, .call 1 (.remove 5)] :
      List Event) = [.start 1, .call 1 (.insert 5 ⟨9, 0⟩)] ++ [.exec 1 .mapped false] ++
        [.call 1 (.remove 5)] from rfl, run_snoc, run_snoc, run_opened, ok_bind, hexec, ok_bind, hclose]
  · simp only [World.step, World.setImage, World.setFile, Function.update_self,
      saveToFile_empty hpos, hstart, ok_bind, pure_eq_ok, if_true]
    simp
  · simp [World.setImage]
  · simp [World.setImage]
  · rw [hlook, oneEntry_lookup]
    decide

end Defuse
