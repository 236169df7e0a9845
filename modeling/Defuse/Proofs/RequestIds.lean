import Defuse.Proofs.Standing
import Defuse.Spec.HdfsHandles

/-! The numbers that the requests of a call carry. Every `addBlock` and `complete` names the file
that `fi` points to; `stamped` says which number the file has at that moment. -/

namespace Defuse

open CSem

/-- A request names this file, and goes to a block of the right size. -/
def Request.Proper (id : ℕ) (sized : Prop) : Request → Prop
  | .addBlock _ fileid => fileid = id
  | .complete fileid _ => fileid = id
  | .writeBlock .. => sized
  | _ => True

def Net.renumbered (net : Net) : ℕ → Ids → List Request → Ids
  | _, ids, [] => ids
  | n, ids, req :: reqs => net.renumbered (n + 1) (net.renumber n req ids) reqs

theorem stamped_append (net : Net) (n : ℕ) (ids : Ids) (xs ys : List Request) :
    net.stamped n ids (xs ++ ys) =
      net.stamped n ids xs ++ net.stamped (n + xs.length) (net.renumbered n ids xs) ys := by
  induction xs generalizing n ids with
  | nil => rfl
  | cons x xs ih =>
    rw [List.cons_append, Net.stamped, ih, Net.stamped, Net.renumbered, List.length_cons,
      List.cons_append, Nat.add_right_comm, Nat.add_assoc]

theorem renumbered_append (net : Net) (n : ℕ) (ids : Ids) (xs ys : List Request) :
    net.renumbered n ids (xs ++ ys) =
      net.renumbered (n + xs.length) (net.renumbered n ids xs) ys := by
  induction xs generalizing n ids with
  | nil => rfl
  | cons x xs ih =>
    rw [List.cons_append, Net.renumbered, ih, Net.renumbered, List.length_cons, Nat.add_right_comm,
      Nat.add_assoc]

/-- What the requests between two states have to do with the numbers: each one is proper for the
number that `named` picks, and the numbers at the end are those of the second state. -/
def Tracked (net : Net) (named : Ids → ℕ) (sized : Prop) (s s' : Hdfs) : Prop :=
  ∃ reqs, s'.log = s.log ++ reqs ∧ s'.ids = net.renumbered s.log.length s.ids reqs ∧
    (∀ e ∈ net.stamped s.log.length s.ids reqs, e.2.Proper (named e.1) sized) ∧
    s'.fh.blocksize = s.fh.blocksize

variable {net : Net} {nn : NamenodeState} {named : Ids → ℕ} {sized : Prop} {s s₁ s' : Hdfs}
  {last last' : Option ExtendedBlock} {pos : BufferPos} {res res' : ℤ}

namespace Tracked

theorem refl (s : Hdfs) : Tracked net named sized s s :=
  ⟨[], by simp, rfl, by simp [Net.stamped], rfl⟩

theorem trans (h : Tracked net named sized s s₁) (h' : Tracked net named sized s₁ s') :
    Tracked net named sized s s' := by
  obtain ⟨xs, hlog, hids, hproper, hsize⟩ := h
  obtain ⟨ys, hlog', hids', hproper', hsize'⟩ := h'
  have hlen : s₁.log.length = s.log.length + xs.length := by rw [hlog, List.length_append]
  rw [hlen, hids] at hids' hproper'
  refine ⟨xs ++ ys, by rw [hlog', hlog, List.append_assoc], ?_, ?_, hsize'.trans hsize⟩
  · rw [hids', renumbered_append]
  · intro e he
    rw [stamped_append, List.mem_append] at he
    exact he.elim (hproper e) (hproper' e)

theorem single (req : Request) (hlog : s'.log = s.log ++ [req])
    (hids : s'.ids = net.renumber s.log.length req s.ids) (hsize : s'.fh.blocksize = s.fh.blocksize)
    (hproper : req.Proper (named s.ids) sized) : Tracked net named sized s s' := by
  refine ⟨[req], hlog, hids, ?_, hsize⟩
  intro e he
  obtain rfl : e = (s.ids, req) := by simpa [Net.stamped] using he
  exact hproper

end Tracked

theorem request_tracked {α : Type} (req : Request) (effect : Hdfs → α × Hdfs)
    (hproper : req.Proper (named s.ids) sized)
    (heffect : ∀ t : Hdfs, (effect t).2.log = t.log ∧ (effect t).2.ids = req.renumber t.ids ∧
      (effect t).2.fh.blocksize = t.fh.blocksize) :
    Tracked net named sized s (net.request req effect s).2 := by
  obtain ⟨hlog, hids, hsize⟩ := heffect (s.logged req)
  cases hfails : net.fails s.log.length with
  | some e =>
    rw [request_fails hfails]
    refine Tracked.single req rfl ?_ rfl hproper
    unfold Net.renumber
    rw [hfails]
    rfl
  | none =>
    rw [request_ok hfails]
    refine Tracked.single req hlog ?_ hsize hproper
    unfold Net.renumber
    rw [hfails]
    exact hids

/-! Requests -/

theorem getBlockLocations_tracked {r : Except ℤ LocatedFile}
    (h : net.getBlockLocations s = (r, s')) : Tracked net named sized s s' := by
  have := @request_tracked net named sized s _ (.getBlockLocations 0 (2 ^ 63 - 1)) (fun s =>
    ((⟨s.filelength, (s.inRange 0 (2 ^ 63 - 1)).map fun pb => ⟨pb.1, pb.2.extended⟩⟩ : LocatedFile),
      s)) trivial fun _ => ⟨rfl, rfl, rfl⟩
  unfold Net.getBlockLocations at h
  rwa [h] at this

theorem lock_tracked {r : Except ℤ (Option ExtendedBlock)}
    (h : hadoopFuseLock net last s = (r, s')) : Tracked net named sized s s' := by
  have happend : Tracked net named sized s (net.append s).2 :=
    request_tracked .append _ trivial fun _ => ⟨rfl, rfl, rfl⟩
  unfold hadoopFuseLock at h
  rcases hr : net.append s with ⟨_ | _, s₁⟩
  all_goals
    rw [hr] at h happend
    obtain rfl : s₁ = s' := congrArg Prod.snd h
    exact happend

theorem updateBlockForPipeline_tracked {b : ExtendedBlock} {r : Except ℤ ExtendedBlock}
    (h : net.updateBlockForPipeline b s = (r, s')) : Tracked net named sized s s' := by
  have : Tracked net named sized s (net.updateBlockForPipeline b s).2 :=
    request_tracked _ _ trivial fun _ => ⟨rfl, rfl, rfl⟩
  rwa [h] at this

theorem updatePipeline_tracked {b b' : ExtendedBlock} {r : Except ℤ Unit}
    (h : net.updatePipeline b b' s = (r, s')) : Tracked net named sized s s' := by
  have : Tracked net named sized s (net.updatePipeline b b' s).2 :=
    request_tracked _ _ trivial fun _ => ⟨rfl, rfl, rfl⟩
  rwa [h] at this

theorem abandonBlock_tracked (b : ExtendedBlock) (s : Hdfs) :
    Tracked net named sized s (net.abandonBlock b s).2 :=
  request_tracked _ _ trivial fun _ => ⟨rfl, rfl, rfl⟩

theorem commit_ids_eq (last : Option ExtendedBlock) (s : Hdfs) : (s.commit last).ids = s.ids := by
  cases last <;> rfl

theorem commit_log (last : Option ExtendedBlock) (s : Hdfs) : (s.commit last).log = s.log := by
  cases last <;> rfl

theorem addBlock_tracked {r : Except ℤ ExtendedBlock}
    (h : net.addBlock last s.fh.fileid s = (r, s')) : Tracked net Ids.handle sized s s' := by
  have : Tracked net Ids.handle sized s (net.addBlock last s.fh.fileid s).2 := by
    refine request_tracked (.addBlock last s.fh.fileid) _ rfl fun t => ?_
    refine ⟨commit_log last t, ?_, congrArg FileHandle.blocksize (commit_fh last)⟩
    have hids := commit_ids_eq last t
    unfold Hdfs.ids at hids ⊢
    rw [Ids.mk.injEq] at hids
    dsimp only [Request.renumber]
    rw [hids.1, hids.2.2]
  rwa [h] at this

theorem writeBlock_tracked (hsized : sized) {len blockoffset : ℕ} {b b' : ExtendedBlock}
    {r : BlockWritten} (h : net.writeBlock nn pos len blockoffset b b' s = .ok (r, s')) :
    Tracked net named sized s s' := by
  obtain ⟨-, f, rfl⟩ := writeBlock_frame h
  refine Tracked.single (.writeBlock b b' blockoffset len) rfl ?_ rfl hsized
  unfold Net.renumber
  cases net.fails s.log.length <;> rfl

theorem completeLoop_tracked (n fileid : ℕ) (hid : s.fh.fileid = fileid)
    (h : completeLoop net fileid last n s = (res, s')) : Tracked net Ids.handle sized s s' := by
  induction n generalizing s with
  | zero =>
    have hreq : Tracked net Ids.handle sized s (net.completeRequest fileid last s).2 := by
      refine request_tracked (.complete fileid last) _ hid.symm fun t => ?_
      exact ⟨commit_log last t, commit_ids_eq last t, congrArg FileHandle.blocksize (commit_fh last)⟩
    unfold completeLoop at h
    rcases hr : net.completeRequest fileid last s with ⟨_ | _, s₁⟩
    all_goals
      rw [hr] at h hreq
      obtain rfl : s₁ = s' := congrArg Prod.snd h
      exact hreq
  | succ n ih =>
    have hreq : Tracked net Ids.handle sized s
        (net.request (.complete fileid last) (fun s => ((), s)) s).2 :=
      request_tracked _ _ hid.symm fun _ => ⟨rfl, rfl, rfl⟩
    unfold completeLoop at h
    rcases hr : net.request (.complete fileid last) (fun s => ((), s)) s with ⟨_ | _, s₁⟩
    · rw [hr] at h hreq
      obtain rfl : s₁ = s' := congrArg Prod.snd h
      exact hreq
    · have hid₁ : s₁.fh.fileid = fileid := by
        rcases request_cases net s (.complete fileid last) (fun s => ((), s)) with ⟨e, -, he⟩ | he
        · rw [hr] at he
          cases he
        · rw [hr] at he
          obtain rfl : s₁ = s.logged (.complete fileid last) := congrArg Prod.snd he
          exact hid
      rw [hr] at h hreq
      exact hreq.trans (ih hid₁ h)

theorem complete_tracked (h : hadoopFuseComplete net s.fh.fileid last s = (res, s')) :
    Tracked net Ids.handle sized s s' :=
  completeLoop_tracked _ _ rfl h

/-! Reading -/

theorem readInto_tracked {size offset : ℕ} {buf : List UInt8} {r : Except ℤ (List UInt8)}
    (h : readInto net size offset buf s = .ok (r, s')) : Tracked net named sized s s' := by
  have hreq := @request_tracked net named sized s _ (.getBlockLocations offset size)
    (fun s => (some (net.locate s offset size), s)) trivial fun _ => ⟨rfl, rfl, rfl⟩
  unfold readInto at h
  rcases hr : net.request (.getBlockLocations offset size)
    (fun s => (some (net.locate s offset size), s)) s with ⟨response, s₁⟩
  rw [hr] at h hreq
  dsimp only at h
  rw [bind_ok_iff] at h
  obtain ⟨⟨res, buf'⟩, -, h⟩ := h
  obtain rfl : s₁ = s' := congrArg Prod.snd (Except.ok.inj h)
  exact hreq

theorem saveBytes_tracked {len offset : ℕ} {r : Except ℤ FuseBuffer}
    (h : saveBytes net len offset s = .ok (r, s')) : Tracked net named sized s s' := by
  unfold saveBytes at h
  split_ifs at h
  · rw [bind_ok_iff] at h
    obtain ⟨⟨r', s₁⟩, hread, h⟩ := h
    obtain rfl : s₁ = s' := congrArg Prod.snd (Except.ok.inj h)
    exact readInto_tracked hread
  · obtain rfl : s = s' := congrArg Prod.snd (Except.ok.inj h)
    exact Tracked.refl s

theorem readCut_tracked {newlength : ℕ} {cut : Option Located} {r : Except ℤ (Option FuseBuffer)}
    (h : readCut net newlength cut s = .ok (r, s')) : Tracked net named sized s s' := by
  unfold readCut at h
  cases cut with
  | none =>
    obtain rfl : s = s' := congrArg Prod.snd (Except.ok.inj h)
    exact Tracked.refl s
  | some l =>
    dsimp only at h
    rw [bind_ok_iff] at h
    obtain ⟨⟨r', s₁⟩, hsave, h⟩ := h
    obtain rfl : s₁ = s' := congrArg Prod.snd (Except.ok.inj h)
    exact saveBytes_tracked hsave

theorem saveAround_tracked {located : LocatedFile} {len offsetintofile : ℕ}
    {r : Except ℤ (Option ℕ × WritePlan)}
    (h : saveAround net located len offsetintofile s = .ok (r, s')) :
    Tracked net named sized s s' := by
  unfold saveAround at h
  rw [bind_ok_iff] at h
  obtain ⟨⟨trailing, s₁⟩, hsave, h⟩ := h
  have h₁ : Tracked net named sized s s₁ := saveBytes_tracked hsave
  cases trailing with
  | error e =>
    obtain rfl : s₁ = s' := congrArg Prod.snd (Except.ok.inj h)
    exact h₁
  | ok trailing =>
    dsimp only at h
    rcases hscan : rewriteScan offsetintofile located.blocks 0 none with
      ⟨truncateto, _ | ⟨b, block⟩⟩
    · rw [hscan] at h
      obtain rfl : s₁ = s' := congrArg Prod.snd (Except.ok.inj h)
      exact h₁
    · rw [hscan] at h
      dsimp only at h
      rw [bind_ok_iff] at h
      obtain ⟨⟨kept, s₂⟩, hsave', h⟩ := h
      cases kept with
      | error e =>
        obtain rfl : s₂ = s' := congrArg Prod.snd (Except.ok.inj h)
        exact h₁.trans (saveBytes_tracked hsave')
      | ok kept =>
        obtain rfl : s₂ = s' := congrArg Prod.snd (Except.ok.inj h)
        exact h₁.trans (saveBytes_tracked hsave')

/-! Writing -/

theorem doWriteLoop_tracked (hsized : sized) {limit : ℕ}
    (h : doWriteLoop net nn limit res pos last s = .ok (res', last', s')) :
    Tracked net Ids.handle sized s s' := by
  induction limit generalizing res pos last s with
  | zero => cases h
  | succ limit ih =>
    rw [doWriteLoop] at h
    split_ifs at h with hmore
    · rcases hadd : net.addBlock last s.fh.fileid s with ⟨_ | block, s₁⟩
      · rw [hadd] at h
        cases h
        exact addBlock_tracked hadd
      · rw [hadd] at h
        dsimp only at h
        rw [bind_ok_iff] at h
        obtain ⟨⟨r, s₂⟩, hwrite, h⟩ := h
        have h₂ : Tracked net Ids.handle sized s s₂ :=
          (addBlock_tracked hadd).trans (writeBlock_tracked hsized hwrite)
        dsimp only at h
        split_ifs at h
        · cases h
          exact h₂.trans (abandonBlock_tracked _ _)
        · exact h₂.trans (ih h)
    · cases h
      exact Tracked.refl _

theorem doWrite_tracked (hsized : sized) {offset : ℕ} {lastlocation : Option Located}
    (h : doWrite net nn pos offset lastlocation last s = .ok (res, last', s')) :
    Tracked net Ids.handle sized s s' := by
  unfold doWrite at h
  cases hopen : openBlock lastlocation offset s.fh.blocksize with
  | none =>
    rw [hopen] at h
    exact doWriteLoop_tracked hsized h
  | some l =>
    rw [hopen] at h
    dsimp only at h
    rcases hupdate : net.updateBlockForPipeline l.b s with ⟨_ | newblock, s₁⟩
    · rw [hupdate] at h
      cases h
      exact updateBlockForPipeline_tracked hupdate
    · rw [hupdate] at h
      dsimp only at h
      rw [bind_ok_iff] at h
      obtain ⟨⟨r, s₂⟩, hwrite, h⟩ := h
      have h₂ : Tracked net Ids.handle sized s s₂ :=
        (updateBlockForPipeline_tracked hupdate).trans (writeBlock_tracked hsized hwrite)
      dsimp only at h
      split_ifs at h
      · cases h
        exact h₂
      · rcases hpipeline : net.updatePipeline l.b r.newblock s₂ with ⟨_ | _, s₃⟩
        · rw [hpipeline] at h
          cases h
          exact h₂.trans (updatePipeline_tracked hpipeline)
        · rw [hpipeline] at h
          exact (h₂.trans (updatePipeline_tracked hpipeline)).trans (doWriteLoop_tracked hsized h)

theorem writeCut_tracked (hsized : sized) {kept : Option FuseBuffer} {bytesoffset : ℕ}
    (h : writeCut net nn kept bytesoffset last s = .ok (res, last', s')) :
    Tracked net Ids.handle sized s s' := by
  unfold writeCut at h
  cases kept with
  | none =>
    cases h
    exact Tracked.refl _
  | some buffer => exact doWrite_tracked hsized h

theorem writeBuffers_tracked (hsized : sized) {located : LocatedFile} {plan : WritePlan}
    {padding : ℕ} {data : FuseBuffer}
    (h : writeBuffers net nn located plan padding data s = .ok (res, s')) :
    Tracked net Ids.handle sized s s' := by
  unfold writeBuffers at h
  rcases hlock : hadoopFuseLock net plan.last s with ⟨_ | last, s₁⟩
  · rw [hlock] at h
    cases h
    exact lock_tracked hlock
  · rw [hlock] at h
    dsimp only at h
    rw [bind_ok_iff] at h
    obtain ⟨⟨res₂, last₂, s₂⟩, hwrite, h⟩ := h
    have h₂ := (lock_tracked hlock).trans (doWrite_tracked hsized hwrite)
    obtain rfl : (hadoopFuseComplete net s₂.fh.fileid last₂ s₂).2 = s' :=
      congrArg Prod.snd (Except.ok.inj h)
    exact h₂.trans (complete_tracked rfl)

/-! Dropping blocks -/

theorem abandonBlocks_tracked {ls : List Located} (h : abandonBlocks net ls s = (res, s')) :
    Tracked net named sized s s' := by
  induction ls generalizing s with
  | nil =>
    cases h
    exact Tracked.refl _
  | cons l ls ih =>
    have hreq := @abandonBlock_tracked net named sized l.b s
    unfold abandonBlocks at h
    rcases hr : net.abandonBlock l.b s with ⟨_ | _, s₁⟩
    · rw [hr] at h hreq
      cases h
      exact hreq
    · rw [hr] at h hreq
      exact hreq.trans (ih h)

theorem overwrite_tracked {r : Except ℤ ℕ} (h : net.create s = (r, s₁)) :
    Tracked net named sized s
      (match r with
        | .error _ => s₁
        | .ok fileid => { s₁ with fh := { s₁.fh with fileid := fileid } }) := by
  unfold Net.create at h
  cases hfails : net.fails s.log.length with
  | some e =>
    rw [request_fails hfails] at h
    cases h
    refine Tracked.single .create rfl ?_ rfl trivial
    unfold Net.renumber
    rw [hfails]
    rfl
  | none =>
    rw [request_ok hfails] at h
    cases h
    refine Tracked.single .create rfl ?_ rfl trivial
    unfold Net.renumber
    rw [hfails]
    rfl

theorem dropBlocks_tracked {blocks : List Located} {lastkeptblock : ℕ}
    {r : Except ℤ (Option ExtendedBlock)}
    (h : dropBlocks net blocks lastkeptblock s = (r, s')) : Tracked net named sized s s' := by
  unfold dropBlocks at h
  split_ifs at h
  · have hinfo : Tracked net named sized s (net.getFileInfo s).2 :=
      request_tracked .getFileInfo _ trivial fun _ => ⟨rfl, rfl, rfl⟩
    rcases hr : net.getFileInfo s with ⟨_ | _, s₁⟩
    · rw [hr] at h hinfo
      cases h
      exact hinfo
    · rw [hr] at h hinfo
      dsimp only at h
      rcases hcreate : net.create s₁ with ⟨_ | fileid, s₂⟩
      · rw [hcreate] at h
        cases h
        exact hinfo.trans (overwrite_tracked hcreate)
      · rw [hcreate] at h
        cases h
        exact hinfo.trans (overwrite_tracked hcreate)
  · rcases hlock : hadoopFuseLock net none s with ⟨_ | _, s₁⟩
    · rw [hlock] at h
      cases h
      exact lock_tracked hlock
    · rw [hlock] at h
      dsimp only at h
      rcases habandon : abandonBlocks net (blocks.drop (lastkeptblock + 1)).reverse s₁ with ⟨res, s₂⟩
      rw [habandon] at h
      dsimp only at h
      have h₂ : Tracked net named sized s s₂ :=
        (lock_tracked hlock).trans (abandonBlocks_tracked habandon)
      split_ifs at h
      · cases h
        exact h₂
      · cases h
        exact h₂

theorem shrink_tracked (hsized : sized) {located : LocatedFile} {newlength : ℕ}
    (h : shrink net nn located newlength s = .ok (res, s')) :
    Tracked net Ids.handle sized s s' := by
  cases shrink_ends h with
  | unread hread => exact readCut_tracked hread
  | undropped hread hdrop => exact (readCut_tracked hread).trans (dropBlocks_tracked hdrop)
  | unwritten hread hdrop hwrite =>
    exact ((readCut_tracked hread).trans (dropBlocks_tracked hdrop)).trans
      (writeCut_tracked hsized hwrite)
  | completed hread hdrop hwrite =>
    exact (((readCut_tracked hread).trans (dropBlocks_tracked hdrop)).trans
      (writeCut_tracked hsized hwrite)).trans (complete_tracked rfl)

/-! The two calls -/

section Located

variable {ftruncate : ℕ → Hdfs → Checked (ℤ × Hdfs)} {located : LocatedFile} {data : FuseBuffer}

theorem rewriteBlocks_tracked (hsized : sized)
    (htruncate : ∀ {n : ℕ} {s s' : Hdfs} {res : ℤ}, ftruncate n s = .ok (res, s') →
      Tracked net Ids.handle sized s s') {padding offsetintofile : ℕ}
    (h : rewriteBlocks net nn ftruncate located padding data offsetintofile s = .ok (res, s')) :
    Tracked net Ids.handle sized s s' := by
  unfold rewriteBlocks at h
  rw [bind_ok_iff] at h
  obtain ⟨⟨r, s₁⟩, hsave, h⟩ := h
  have h₁ : Tracked net Ids.handle sized s s₁ := saveAround_tracked hsave
  rcases r with e | ⟨_ | truncateto, plan⟩
  · cases h
    exact h₁
  · cases h
  · dsimp only at h
    rw [bind_ok_iff] at h
    obtain ⟨⟨res₂, s₂⟩, hcut, h⟩ := h
    dsimp only at h
    split_ifs at h
    · cases h
      exact h₁.trans (htruncate hcut)
    · exact (h₁.trans (htruncate hcut)).trans (writeBuffers_tracked hsized h)

theorem writeLocated_tracked (hsized : sized)
    (htruncate : ∀ {n : ℕ} {s s' : Hdfs} {res : ℤ}, ftruncate n s = .ok (res, s') →
      Tracked net Ids.handle sized s s') {offset : ℕ}
    (h : writeLocated net nn ftruncate located data offset s = .ok (res, s')) :
    Tracked net Ids.handle sized s s' := by
  unfold writeLocated at h
  dsimp only at h
  by_cases hbefore : min offset located.filelength <
      (located.blocks.getLast?.map Located.offset).getD 0
  · rw [if_pos hbefore] at h
    exact rewriteBlocks_tracked hsized htruncate h
  · rw [if_neg hbefore] at h
    exact writeBuffers_tracked hsized h

end Located

/-- Both calls, by the depth of their recursion. -/
theorem calls_tracked (hsized : sized) (depth : ℕ) :
    (∀ {data : FuseBuffer} {offset : ℕ} {s s' : Hdfs} {res : ℤ},
      hadoopFuseWrite net nn depth data offset s = .ok (res, s') →
        Tracked net Ids.handle sized s s') ∧
    ∀ {newlength : ℕ} {s s' : Hdfs} {res : ℤ},
      hadoopFuseFtruncate net nn depth newlength s = .ok (res, s') →
        Tracked net Ids.handle sized s s' := by
  induction depth with
  | zero =>
    constructor
    · intro data offset s s' res h
      cases h
    · intro newlength s s' res h
      cases h
  | succ depth ih =>
    constructor
    · intro data offset s s' res h
      rw [hadoopFuseWrite] at h
      rcases hlocated : net.getBlockLocations s with ⟨_ | located, s₁⟩
      · rw [hlocated] at h
        cases h
        exact getBlockLocations_tracked hlocated
      · rw [hlocated] at h
        dsimp only at h
        rw [bind_ok_iff] at h
        obtain ⟨⟨res₂, s₂⟩, hwrite, h⟩ := h
        obtain rfl : s₂ = s' := congrArg Prod.snd (Except.ok.inj h)
        exact (getBlockLocations_tracked hlocated).trans (writeLocated_tracked hsized ih.2 hwrite)
    · intro newlength s s' res h
      rw [hadoopFuseFtruncate] at h
      rcases hlocated : net.getBlockLocations s with ⟨_ | located, s₁⟩
      · rw [hlocated] at h
        cases h
        exact getBlockLocations_tracked hlocated
      · rw [hlocated] at h
        dsimp only at h
        have h₁ : Tracked net Ids.handle sized s s₁ := getBlockLocations_tracked hlocated
        split_ifs at h
        · rw [bind_ok_iff] at h
          obtain ⟨⟨res₂, s₂⟩, hwrite, h⟩ := h
          obtain rfl : s₂ = s' := congrArg Prod.snd (Except.ok.inj h)
          exact h₁.trans (ih.1 hwrite)
        · cases h
          exact h₁
        · exact h₁.trans (shrink_tracked hsized h)

end Defuse
