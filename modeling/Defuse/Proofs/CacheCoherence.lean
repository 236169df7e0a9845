import Defuse.Lib.Runs
import Defuse.Spec.SshfsCache

/-! Whether a `getattr` through the attribute cache of sshfs can miss a modification that
returned before it began. -/

namespace Defuse

open CSem

variable {opts : CacheOpts} {object : ℕ} {s s' : SshfsState} {c t : ℕ} {path : Path}

/-- No `getattr` that began after a modification of its file had returned was answered with
a stat from before that modification was sent. -/
def Coherent (s : SshfsState) : Prop :=
  ∀ a ∈ s.answers, ∀ m ∈ s.mods, m.returned < a.started → a.file = some m.file → m.sent ≤ a.stat

/-- Attributes on their way into the cache. -/
structure Fetch where
  path : Path
  wrctr : ℕ
  stat : ℕ

namespace Pending

/-- The attributes a call has been answered with. -/
@[simp] def fetched : Pending → Option Fetch
  | .fetching path _ _ wrctr attrs => attrs.join.map (⟨path, wrctr, ·⟩)
  | .opening path _ wrctr _ attrs => attrs.join.map (⟨path, wrctr, ·⟩)
  | _ => none

/-- The counter a call has read. -/
@[simp] def counter : Pending → Option ℕ
  | .fetching _ _ _ wrctr _ => some wrctr
  | .opening _ _ wrctr _ _ => some wrctr
  | _ => none

/-- When the modification was sent. -/
@[simp] def sentAt : Pending → Option ℕ
  | .writing _ sent => some sent
  | .truncating _ sent _ => some sent
  | .ftruncating _ sent _ => some sent
  | _ => none

/-- When the `getattr` began. -/
@[simp] def startedAt : Pending → Option ℕ
  | .missed _ started _ => some started
  | .fetching _ started _ _ _ => some started
  | _ => none

/-- The file a call works on, as the server told. -/
@[simp] def target : Pending → Option ℕ
  | .writing file _ => some file
  | .truncating _ _ reply => reply.bind (·.1)
  | .ftruncating file _ _ => some file
  | .opening _ _ _ handle _ => handle.join
  | _ => none

theorem counter_of_fetched {p : Pending} {f : Fetch} (h : f ∈ p.fetched) : f.wrctr ∈ p.counter := by
  unfold fetched at h
  split at h
  · obtain ⟨stat, -, rfl⟩ := Option.map_eq_some_iff.mp h
    rfl
  · obtain ⟨stat, -, rfl⟩ := Option.map_eq_some_iff.mp h
    rfl
  · cases h

end Pending

namespace SshfsState

def Newer (s : SshfsState) (path : Path) (stat : ℕ) : Prop :=
  ∀ m ∈ s.mods, s.files path = some m.file → m.sent ≤ stat

/-- What holds of a call in flight. Attributes fetched under an older counter will not be
cached. -/
structure PendingOk (s : SshfsState) (p : Pending) : Prop where
  fetched : ∀ f ∈ p.fetched, f.wrctr = s.cache.writeCtr → s.Newer f.path f.stat
  later : ∀ f ∈ p.fetched, ∀ started ∈ p.startedAt, started ≤ f.stat
  counter : ∀ w ∈ p.counter, w ≤ s.cache.writeCtr
  sent : ∀ sent ∈ p.sentAt, sent < s.clock
  started : ∀ started ∈ p.startedAt, started < s.clock
  target : ∀ file ∈ p.target, file < s.nextFile

/-- The invariant: nothing that can still be served from the cache, now or when a call in
flight has returned, is older than a modification that has returned. -/
structure Inv (s : SshfsState) : Prop where
  files_lt : ∀ q f, s.files q = some f → f < s.nextFile
  handles_lt : ∀ f ∈ s.handles, f < s.nextFile
  mods_past : ∀ m ∈ s.mods, m.sent ≤ m.returned ∧ m.returned < s.clock ∧ m.file < s.nextFile
  answers_past : ∀ a ∈ s.answers, a.started < s.clock
  entries : ∀ e ∈ s.cache.table, s.now ≤ e.2.statValid → s.Newer e.1 e.2.stat
  calls : ∀ p ∈ s.calls, s.PendingOk p.2
  coherent : Coherent s

theorem lookupCall_ok (h : s.Inv) {p : Pending} (hp : s.lookupCall c = some p) : s.PendingOk p := by
  obtain ⟨e, he, rfl⟩ := Option.map_eq_some_iff.mp hp
  exact h.calls e (List.mem_of_find?_eq_some he)

theorem Inv.later (h : s.Inv) : ({ s with clock := s.clock + 1 } : SshfsState).Inv := by
  refine ⟨h.files_lt, h.handles_lt, fun m hm => ?_, fun a ha => ?_, h.entries, fun p hp => ?_,
    h.coherent⟩
  · obtain ⟨h1, h2, h3⟩ := h.mods_past m hm
    exact ⟨h1, Nat.lt_succ_of_lt h2, h3⟩
  · exact Nat.lt_succ_of_lt (h.answers_past a ha)
  · have hok := h.calls p hp
    exact ⟨hok.fetched, hok.later, hok.counter, fun t ht => Nat.lt_succ_of_lt (hok.sent t ht),
      fun t ht => Nat.lt_succ_of_lt (hok.started t ht), hok.target⟩

theorem Inv.tick (h : s.Inv) (secs : ℕ) : ({ s with now := s.now + secs } : SshfsState).Inv := by
  refine ⟨h.files_lt, h.handles_lt, h.mods_past, h.answers_past, fun e he hv => ?_, fun p hp => ?_,
    h.coherent⟩
  · exact h.entries e he (by dsimp only at hv; omega)
  · have hok := h.calls p hp
    exact ⟨hok.fetched, hok.later, hok.counter, hok.sent, hok.started, hok.target⟩

theorem Inv.endCall (h : s.Inv) (c : ℕ) : (s.endCall c).Inv := by
  refine ⟨h.files_lt, h.handles_lt, h.mods_past, h.answers_past, h.entries, fun p hp => ?_,
    h.coherent⟩
  have hok := h.calls p (List.mem_of_mem_filter hp)
  exact ⟨hok.fetched, hok.later, hok.counter, hok.sent, hok.started, hok.target⟩

theorem Inv.setCall (h : s.Inv) {p : Pending} (hp : s.PendingOk p) (c : ℕ) :
    (s.setCall c p).Inv := by
  refine ⟨h.files_lt, h.handles_lt, h.mods_past, h.answers_past, h.entries, fun q hq => ?_,
    h.coherent⟩
  rcases List.mem_cons.mp hq with rfl | hq
  · exact ⟨hp.fetched, hp.later, hp.counter, hp.sent, hp.started, hp.target⟩
  · have hok := h.calls q (List.mem_of_mem_filter hq)
    exact ⟨hok.fetched, hok.later, hok.counter, hok.sent, hok.started, hok.target⟩

/-- A call with a handle begins. -/
theorem Inv.setHandle (h : s.Inv) (c handle : ℕ) {p : ℕ → Pending}
    (hp : ∀ file < s.nextFile, s.PendingOk (p file)) :
    ∃ s', (match s.handles[handle]? with
      | none => pure s
      | some file => pure (s.setCall c (p file)) : Checked SshfsState) = .ok s' ∧ s'.Inv := by
  cases hf : s.handles[handle]? with
  | none => exact ⟨s, rfl, h⟩
  | some file =>
    exact ⟨_, rfl, h.setCall (hp file (h.handles_lt file (List.mem_of_getElem? hf))) c⟩

theorem Inv.shrink (h : s.Inv) {cache : Cache} (hsub : cache.table ⊆ s.cache.table)
    (hctr : cache.writeCtr = s.cache.writeCtr) : ({ s with cache := cache } : SshfsState).Inv := by
  refine ⟨h.files_lt, h.handles_lt, h.mods_past, h.answers_past,
    fun e he => h.entries e (hsub he), fun p hp => ?_, h.coherent⟩
  have hok := h.calls p hp
  exact ⟨fun f hf hw => hok.fetched f hf (hw.trans hctr), hok.later,
    fun w hw => hctr ▸ hok.counter w hw, hok.sent, hok.started, hok.target⟩

theorem Inv.grow (h : s.Inv) {cache : Cache} {node : Node}
    (hsub : cache.table ⊆ (path, node) :: s.cache.table) (hctr : cache.writeCtr = s.cache.writeCtr)
    (hnew : s.Newer path node.stat) : ({ s with cache := cache } : SshfsState).Inv := by
  refine ⟨h.files_lt, h.handles_lt, h.mods_past, h.answers_past, fun e he hv => ?_, fun p hp => ?_,
    h.coherent⟩
  · rcases List.mem_cons.mp (hsub he) with rfl | he
    · exact hnew
    · exact h.entries e he hv
  · have hok := h.calls p hp
    exact ⟨fun f hf hw => hok.fetched f hf (hw.trans hctr), hok.later,
      fun w hw => hctr ▸ hok.counter w hw, hok.sent, hok.started, hok.target⟩

theorem cacheClean_subset (opts : CacheOpts) (now : ℤ) (cache : Cache) :
    (cacheClean opts now cache).table ⊆ cache.table ∧
      (cacheClean opts now cache).writeCtr = cache.writeCtr := by
  unfold cacheClean
  split_ifs
  · exact ⟨List.filter_subset_self _, rfl⟩
  · exact ⟨List.Subset.refl _, rfl⟩

theorem cacheAddAttr_cases (opts : CacheOpts) (now : ℤ) (cache : Cache) (path : Path)
    (stat wrctr : ℕ) :
    cacheAddAttr opts now cache path stat wrctr = cache ∨
      wrctr = cache.writeCtr ∧ ∃ node : Node, node.stat = stat ∧
        (cacheAddAttr opts now cache path stat wrctr).table ⊆ (path, node) :: cache.table ∧
        (cacheAddAttr opts now cache path stat wrctr).writeCtr = cache.writeCtr := by
  unfold cacheAddAttr
  split_ifs with hw
  · right
    dsimp only
    refine ⟨hw, (cacheGet cache path).setStat opts now stat, rfl, fun e he => ?_,
      (cacheClean_subset _ _ _).2⟩
    rcases List.mem_cons.mp ((cacheClean_subset _ _ _).1 he) with rfl | he
    · exact List.mem_cons_self
    · exact List.mem_cons_of_mem _ (List.mem_of_mem_filter he)
  · exact Or.inl rfl

theorem Inv.addAttr (h : s.Inv) (opts : CacheOpts) {stat wrctr : ℕ}
    (hnew : wrctr = s.cache.writeCtr → s.Newer path stat) :
    ({ s with cache := cacheAddAttr opts s.now s.cache path stat wrctr } : SshfsState).Inv := by
  rcases cacheAddAttr_cases opts s.now s.cache path stat wrctr with heq | ⟨hw, node, rfl, hsub, hctr⟩
  · rw [heq]
    exact h
  · exact h.grow hsub hctr (hnew hw)

theorem cachePurgeParent_subset (cache : Cache) (path : Path) :
    (cachePurgeParent cache path).table ⊆ cache.table ∧
      (cachePurgeParent cache path).writeCtr = cache.writeCtr := by
  unfold cachePurgeParent
  split
  · exact ⟨List.Subset.refl _, rfl⟩
  · exact ⟨List.filter_subset_self _, rfl⟩
  · exact ⟨List.filter_subset_self _, rfl⟩

theorem Inv.invalidate (h : s.Inv) (path : Path) :
    ({ s with cache := cacheInvalidate s.cache path } : SshfsState).Inv :=
  h.shrink (List.filter_subset_self _) rfl

theorem Inv.invalidateDir (h : s.Inv) (path : Path) :
    ({ s with cache := cacheInvalidateDir s.cache path } : SshfsState).Inv := by
  obtain ⟨hsub, hctr⟩ := cachePurgeParent_subset (cachePurge s.cache path) path
  exact h.shrink (List.Subset.trans hsub (List.filter_subset_self _)) hctr

theorem Inv.invalidateWrite (h : s.Inv) (hctr : s.cache.writeCtr + 1 < 2 ^ 64) (path : Path) :
    ({ s with cache := cacheInvalidateWrite s.cache path } : SshfsState).Inv ∧
      (cacheInvalidateWrite s.cache path).writeCtr = s.cache.writeCtr + 1 := by
  have hnext : (cacheInvalidateWrite s.cache path).writeCtr = s.cache.writeCtr + 1 :=
    Nat.mod_eq_of_lt hctr
  refine ⟨⟨h.files_lt, h.handles_lt, h.mods_past, h.answers_past,
    fun e he => h.entries e (List.mem_of_mem_filter he), fun p hp => ?_, h.coherent⟩, hnext⟩
  have hok := h.calls p hp
  refine ⟨fun f hf hw => ?_, hok.later, fun w hw => ?_, hok.sent, hok.started, hok.target⟩
  · have := hok.counter f.wrctr (Pending.counter_of_fetched hf)
    dsimp only at hw
    omega
  · have := hok.counter w hw
    dsimp only
    omega

theorem Inv.answer (h : s.Inv) {a : Answer} (hpast : a.started < s.clock)
    (hnew : ∀ m ∈ s.mods, m.returned < a.started → a.file = some m.file → m.sent ≤ a.stat) :
    (s.answer a).Inv := by
  refine ⟨h.files_lt, h.handles_lt, h.mods_past, fun b hb => ?_, h.entries, fun p hp => ?_,
    fun b hb => ?_⟩
  · rcases List.mem_cons.mp hb with rfl | hb
    · exact hpast
    · exact h.answers_past b hb
  · have hok := h.calls p hp
    exact ⟨hok.fetched, hok.later, hok.counter, hok.sent, hok.started, hok.target⟩
  · rcases List.mem_cons.mp hb with rfl | hb
    · exact hnew
    · exact h.coherent b hb

/-- A modification may return when nothing older than it can still be served. -/
theorem Inv.modified (h : s.Inv) {m : Modification} (hsent : m.sent ≤ m.returned)
    (hret : m.returned + 1 = s.clock) (hfile : m.file < s.nextFile)
    (hentries : ∀ e ∈ s.cache.table, s.files e.1 = some m.file → s.now ≤ e.2.statValid →
      m.sent ≤ e.2.stat)
    (hfetches : ∀ p ∈ s.calls, ∀ f ∈ p.2.fetched, s.files f.path = some m.file →
      f.wrctr = s.cache.writeCtr → m.sent ≤ f.stat) :
    (s.modified m).Inv := by
  refine ⟨h.files_lt, h.handles_lt, fun n hn => ?_, h.answers_past, fun e he hv n hn hf => ?_,
    fun p hp => ?_, fun a ha n hn hlt hf => ?_⟩
  · rcases List.mem_cons.mp hn with rfl | hn
    · exact ⟨hsent, by change n.returned < s.clock; omega, hfile⟩
    · exact h.mods_past n hn
  · rcases List.mem_cons.mp hn with rfl | hn
    · exact hentries e he hf hv
    · exact h.entries e he hv n hn hf
  · have hok := h.calls p hp
    refine ⟨fun f hf hw n hn hfile => ?_, hok.later, hok.counter, hok.sent, hok.started, hok.target⟩
    rcases List.mem_cons.mp hn with rfl | hn
    · exact hfetches p hp f hf hfile hw
    · exact hok.fetched f hf hw n hn hfile
  · rcases List.mem_cons.mp hn with rfl | hn
    · have := h.answers_past a ha
      omega
    · exact h.coherent a ha n hn hlt hf

/-- A new file has no modifications yet. -/
theorem Inv.create (h : s.Inv) (path : Path) :
    ({ s.setFile path s.nextFile with nextFile := s.nextFile + 1 } : SshfsState).Inv := by
  have hnewer : ∀ {q : Path} {stat : ℕ}, s.Newer q stat →
      (s.setFile path s.nextFile).Newer q stat := by
    intro q stat hq m hm hf
    by_cases hqp : q = path
    · subst hqp
      have := (h.mods_past m hm).2.2
      simp only [setFile, Function.update_self, Option.some_inj] at hf
      omega
    · simp only [setFile, Function.update_of_ne hqp] at hf
      exact hq m hm hf
  refine ⟨fun q f hf => ?_, fun f hf => ?_, fun m hm => ?_, h.answers_past,
    fun e he hv => hnewer (h.entries e he hv), fun p hp => ?_, h.coherent⟩
  · by_cases hqp : q = path
    · subst hqp
      simp only [setFile, Function.update_self, Option.some_inj] at hf
      dsimp only
      omega
    · simp only [setFile, Function.update_of_ne hqp] at hf
      exact Nat.lt_succ_of_lt (h.files_lt q f hf)
  · exact Nat.lt_succ_of_lt (h.handles_lt f hf)
  · obtain ⟨h1, h2, h3⟩ := h.mods_past m hm
    exact ⟨h1, h2, Nat.lt_succ_of_lt h3⟩
  · have hok := h.calls p hp
    exact ⟨fun f hf hw => hnewer (hok.fetched f hf hw), hok.later, hok.counter, hok.sent,
      hok.started, fun f hf => Nat.lt_succ_of_lt (hok.target f hf)⟩

theorem Inv.remove (h : s.Inv) (path : Path) : (s.setFile path none).Inv := by
  have hfiles : ∀ {q : Path} {f : ℕ}, (s.setFile path none).files q = some f →
      s.files q = some f := by
    intro q f hf
    by_cases hqp : q = path
    · subst hqp
      simp [setFile] at hf
    · simpa only [setFile, Function.update_of_ne hqp] using hf
  refine ⟨fun q f hf => h.files_lt q f (hfiles hf), h.handles_lt, h.mods_past, h.answers_past,
    fun e he hv m hm hf => h.entries e he hv m hm (hfiles hf), fun p hp => ?_, h.coherent⟩
  have hok := h.calls p hp
  exact ⟨fun f hf hw m hm hfile => hok.fetched f hf hw m hm (hfiles hfile), hok.later,
    hok.counter, hok.sent, hok.started, hok.target⟩

/-- Nothing in the cache that can be served for the file is older than the moment `sent`;
the entry of `purged` goes. -/
def EntriesFresh (s : SshfsState) (file sent : ℕ) (purged : Option Path) : Prop :=
  ∀ e ∈ s.cache.table, some e.1 ≠ purged → s.files e.1 = some file → s.now ≤ e.2.statValid →
    sent ≤ e.2.stat

def FetchesFresh (s : SshfsState) (file sent : ℕ) : Prop :=
  ∀ p ∈ s.calls, ∀ f ∈ p.2.fetched, s.files f.path = some file → f.wrctr = s.cache.writeCtr →
    sent ≤ f.stat

instance (s : SshfsState) (file sent : ℕ) (purged : Option Path) :
    Decidable (s.EntriesFresh file sent purged) := by
  unfold EntriesFresh
  infer_instance

instance (s : SshfsState) (file sent : ℕ) : Decidable (s.FetchesFresh file sent) := by
  unfold FetchesFresh
  infer_instance

/-- What a call that is about to return needs. -/
def ReturnSafe (s : SshfsState) (ok : Bool) : Pending → Prop
  | .writing file sent =>
    if ok then s.cache.writeCtr + 1 < 2 ^ 64 ∧ s.EntriesFresh file sent (some [])
    else s.EntriesFresh file sent none ∧ s.FetchesFresh file sent
  | .truncating path sent (some (some file, truncated)) =>
    s.EntriesFresh file sent (if truncated then some path else none) ∧ s.FetchesFresh file sent
  | .ftruncating file sent (some truncated) =>
    truncated = false ∧ s.EntriesFresh file sent none ∧ s.FetchesFresh file sent
  | _ => True

/-- A call that gets to its first wait: with a handle, `fi` points to a whole `struct sshfs_file`. -/
def BeginSafe (object : ℕ) : SshfsOp → Prop
  | .write _ => connverOffset + 4 ≤ object
  | .ftruncate _ => connverOffset + 4 ≤ object
  | .fgetattr _ => False
  | _ => True

/-- The steps after which the cache is still coherent. -/
def StepSafe (object : ℕ) (s : SshfsState) : CacheEvent → Prop
  | .call c op => (s.lookupCall c).isSome ∨ BeginSafe object op
  | .resume c ok => ∀ p ∈ s.lookupCall c, s.ReturnSafe ok p
  | _ => True

instance (s : SshfsState) (ok : Bool) (p : Pending) : Decidable (s.ReturnSafe ok p) := by
  unfold ReturnSafe
  split <;> infer_instance

instance (object : ℕ) (op : SshfsOp) : Decidable (BeginSafe object op) := by
  unfold BeginSafe
  split <;> infer_instance

instance (object : ℕ) (s : SshfsState) (e : CacheEvent) : Decidable (s.StepSafe object e) := by
  unfold StepSafe
  split <;> infer_instance

theorem beginCall_inv (h : s.Inv) (ht : t + 1 = s.clock) {op : SshfsOp} (hop : BeginSafe object op) :
    ∃ s', beginCall object s t c op = .ok s' ∧ s'.Inv := by
  have hclock : t < s.clock := by omega
  cases op with
  | «open» path creat =>
    refine ⟨_, rfl, h.setCall ⟨?_, ?_, ?_, ?_, ?_, ?_⟩ c⟩ <;> simp
  | write handle =>
    have hload : loadConnver object = .ok () := if_pos hop
    simp only [beginCall, hload, ok_bind]
    refine h.setHandle c handle fun file hlt => ⟨?_, ?_, ?_, ?_, ?_, ?_⟩ <;> simp [hlt, hclock]
  | truncate path =>
    refine ⟨_, rfl, h.setCall ⟨?_, ?_, ?_, ?_, ?_, ?_⟩ c⟩ <;> simp [hclock]
  | ftruncate handle =>
    have hload : loadConnver object = .ok () := if_pos hop
    simp only [beginCall, hload, ok_bind]
    refine h.setHandle c handle fun file hlt => ⟨?_, ?_, ?_, ?_, ?_, ?_⟩ <;> simp [hlt, hclock]
  | getattr path =>
    simp only [beginCall]
    cases hget : cacheGetAttr s.now s.cache path with
    | none =>
      refine ⟨_, rfl, h.setCall ⟨?_, ?_, ?_, ?_, ?_, ?_⟩ c⟩ <;> simp [hclock]
    | some stat =>
      -- the entry is not expired, so it is new enough
      obtain ⟨node, hlook, hvalid⟩ := Option.bind_eq_some_iff.mp hget
      obtain ⟨e, he, rfl⟩ := Option.map_eq_some_iff.mp hlook
      have hpath : e.1 = path := by simpa using List.find?_some he
      split_ifs at hvalid with hnow
      obtain rfl := Option.some.inj hvalid
      have hnewer := h.entries e (List.mem_of_find?_eq_some he) (by omega)
      rw [hpath] at hnewer
      exact ⟨_, rfl, h.answer hclock fun m hm _ hf => hnewer m hm hf⟩
  | fgetattr handle => exact hop.elim
  | unlink path =>
    refine ⟨_, rfl, h.setCall ⟨?_, ?_, ?_, ?_, ?_, ?_⟩ c⟩ <;> simp

theorem Inv.newer_now (h : s.Inv) (ht : t + 1 = s.clock) (path : Path) : s.Newer path t := by
  intro m hm _
  obtain ⟨h1, h2, -⟩ := h.mods_past m hm
  omega

theorem serveAttrs_inv (h : s.Inv) (ht : t + 1 = s.clock) (ok : Bool) :
    (serveAttrs s t c ok).Inv := by
  unfold serveAttrs
  dsimp only
  split
  · rename_i path started file wrctr hcall
    have hok := lookupCall_ok h hcall
    have hstart := hok.started started rfl
    apply h.setCall
    refine ⟨?_, ?_, hok.counter, hok.sent, hok.started, hok.target⟩
    · cases ok with
      | false => simp
      | true =>
        intro f hf _
        obtain rfl := Option.some.inj hf
        exact h.newer_now ht path
    · cases ok with
      | false => simp
      | true =>
        intro f hf t' ht'
        obtain rfl := Option.some.inj hf
        obtain rfl := Option.some.inj ht'
        dsimp only
        omega
  · rename_i path creat wrctr handle hcall
    have hok := lookupCall_ok h hcall
    apply h.setCall
    refine ⟨?_, fun _ _ _ h => (by cases h), hok.counter, hok.sent, hok.started, hok.target⟩
    cases ok with
    | false => simp
    | true =>
      intro f hf _
      obtain rfl := Option.some.inj hf
      exact h.newer_now ht path
  · exact h

theorem serve_inv (h : s.Inv) (c : ℕ) (ok : Bool) : (serve s c ok).Inv := by
  unfold serve
  split
  · rename_i path creat wrctr attrs hcall
    have hok := lookupCall_ok h hcall
    split
    · rename_i file hfile
      apply h.setCall
      refine ⟨hok.fetched, hok.later, hok.counter, hok.sent, hok.started, fun f hf => ?_⟩
      obtain rfl := Option.some.inj hf
      exact h.files_lt path file hfile
    · have hnew := lookupCall_ok (h.create path) hcall
      apply (h.create path).setCall
      refine ⟨hnew.fetched, hnew.later, hnew.counter, hnew.sent, hnew.started, fun f hf => ?_⟩
      obtain rfl := Option.some.inj hf
      exact Nat.lt_succ_self _
    · apply h.setCall
      exact ⟨hok.fetched, hok.later, hok.counter, hok.sent, hok.started, fun f hf => by cases hf⟩
  · rename_i path sent hcall
    have hok := lookupCall_ok h hcall
    apply h.setCall
    exact ⟨hok.fetched, hok.later, hok.counter, hok.sent, hok.started,
      fun f hf => h.files_lt path f hf⟩
  · rename_i file sent hcall
    have hok := lookupCall_ok h hcall
    apply h.setCall
    exact ⟨hok.fetched, hok.later, hok.counter, hok.sent, hok.started, hok.target⟩
  · rename_i path hcall
    cases ok with
    | false =>
      refine h.setCall ⟨?_, ?_, ?_, ?_, ?_, ?_⟩ c <;> simp
    | true =>
      refine (h.remove path).setCall ⟨?_, ?_, ?_, ?_, ?_, ?_⟩ c <;> simp
  · exact h

theorem Inv.addHandle (h : s.Inv) {file : ℕ} (hfile : file < s.nextFile) :
    ({ s with handles := s.handles ++ [file] } : SshfsState).Inv := by
  refine ⟨h.files_lt, fun f hf => ?_, h.mods_past, h.answers_past, h.entries, fun p hp => ?_,
    h.coherent⟩
  · rcases List.mem_append.mp hf with hf | hf
    · exact h.handles_lt f hf
    · rw [List.mem_singleton] at hf
      exact hf ▸ hfile
  · have hok := h.calls p hp
    exact ⟨hok.fetched, hok.later, hok.counter, hok.sent, hok.started, hok.target⟩

theorem Inv.returned (h : s.Inv) (ht : t + 1 = s.clock) {p : Pending} (hok : s.PendingOk p)
    {file sent : ℕ} (hfile : file ∈ p.target) (hsent : sent ∈ p.sentAt)
    (hentries : s.EntriesFresh file sent none) (hfetches : s.FetchesFresh file sent) (c : ℕ) :
    ((s.endCall c).modified ⟨file, sent, t⟩).Inv := by
  have hlt := hok.sent sent hsent
  refine (h.endCall c).modified ?_ ht (hok.target file hfile) ?_ ?_
  · dsimp only
    omega
  · exact fun e he hf hv => hentries e he (by simp) hf hv
  · exact fun p hp => hfetches p (List.mem_of_mem_filter hp)

theorem resume_inv (h : s.Inv) (ht : t + 1 = s.clock) {ok : Bool}
    (hsafe : ∀ p ∈ s.lookupCall c, s.ReturnSafe ok p) :
    ∃ s', resume opts s t c ok = .ok s' ∧ s'.Inv := by
  unfold resume
  split
  · rename_i path started file hcall
    have hok := lookupCall_ok h hcall
    refine ⟨_, rfl, ?_⟩
    apply h.setCall
    refine ⟨?_, ?_, ?_, ?_, hok.started, ?_⟩ <;> simp
  · rename_i path started file wrctr stat hcall
    have hok := lookupCall_ok h hcall
    have hadd := h.addAttr opts (hok.fetched ⟨path, wrctr, stat⟩ rfl)
    refine ⟨_, rfl, (hadd.endCall c).answer (hok.started started rfl) fun m hm hlt _ => ?_⟩
    have hlater := hok.later ⟨path, wrctr, stat⟩ rfl started rfl
    have hsent := (h.mods_past m hm).1
    dsimp only at hlt hlater ⊢
    omega
  · exact ⟨_, rfl, h.endCall c⟩
  · rename_i path _ wrctr file stat hcall
    have hok := lookupCall_ok h hcall
    have hadd := h.addAttr opts (hok.fetched ⟨path, wrctr, stat⟩ rfl)
    exact ⟨_, rfl, (hadd.endCall c).addHandle (hok.target file rfl)⟩
  · exact ⟨_, rfl, (h.invalidate _).endCall c⟩
  · rename_i file sent hcall
    have hok := lookupCall_ok h hcall
    have hret := hsafe _ hcall
    cases ok with
    | false =>
      obtain ⟨hentries, hfetches⟩ := hret
      exact ⟨_, rfl, h.returned ht hok rfl rfl hentries hfetches c⟩
    | true =>
      -- attributes fetched before now have read an older counter
      obtain ⟨hctr, hentries⟩ := hret
      obtain ⟨hinv, hnext⟩ := h.invalidateWrite hctr []
      refine ⟨_, rfl, hinv.returned ht (lookupCall_ok hinv hcall) rfl rfl ?_ ?_ c⟩
      · intro e he _ hf hv
        obtain ⟨he, hne⟩ := List.mem_filter.mp he
        exact hentries e he (by simpa using hne) hf hv
      · intro p hp f hf _ hw
        have := (h.calls p hp).counter f.wrctr (Pending.counter_of_fetched hf)
        dsimp only at hw
        omega
  · rename_i path sent file truncated hcall
    have hret := hsafe _ hcall
    cases file with
    | none =>
      cases truncated with
      | false => exact ⟨_, rfl, h.endCall c⟩
      | true => exact ⟨_, rfl, (h.invalidate path).endCall c⟩
    | some file =>
      obtain ⟨hentries, hfetches⟩ := hret
      cases truncated with
      | false =>
        exact ⟨_, rfl, h.returned ht (lookupCall_ok h hcall) rfl rfl hentries hfetches c⟩
      | true =>
        have hinv := h.invalidate path
        refine ⟨_, rfl, hinv.returned ht (lookupCall_ok hinv hcall) rfl rfl ?_ hfetches c⟩
        intro e he _ hf hv
        obtain ⟨he, hne⟩ := List.mem_filter.mp he
        exact hentries e he (by simpa using hne) hf hv
  · rename_i file sent hcall
    exact absurd (hsafe _ hcall).1 (by simp)
  · rename_i file sent hcall
    obtain ⟨-, hentries, hfetches⟩ := hsafe _ hcall
    exact ⟨_, rfl, h.returned ht (lookupCall_ok h hcall) rfl rfl hentries hfetches c⟩
  · exact ⟨_, rfl, (h.invalidateDir _).endCall c⟩
  · exact ⟨_, rfl, h.endCall c⟩
  · exact ⟨_, rfl, h⟩

theorem step_inv (h : s.Inv) {e : CacheEvent} (hsafe : s.StepSafe object e) :
    ∃ s', s.step opts object e = .ok s' ∧ s'.Inv := by
  have hlater := h.later
  cases e with
  | tick secs => exact ⟨_, rfl, hlater.tick secs⟩
  | call c op =>
    simp only [step]
    split_ifs with hbusy
    · exact ⟨_, rfl, hlater⟩
    · exact beginCall_inv hlater rfl (hsafe.resolve_left hbusy)
  | serveAttrs c ok => exact ⟨_, rfl, serveAttrs_inv hlater rfl ok⟩
  | serve c ok => exact ⟨_, rfl, serve_inv hlater c ok⟩
  | resume c ok => exact resume_inv hlater rfl hsafe

def start (now : ℤ) (files : Path → Option ℕ) (nextFile : ℕ) : SshfsState :=
  { now, files, nextFile }

theorem start_inv {now : ℤ} {files : Path → Option ℕ} {nextFile : ℕ}
    (hfiles : ∀ q f, files q = some f → f < nextFile) : (start now files nextFile).Inv :=
  ⟨hfiles, by simp [start], by simp [start], by simp [start], by simp [start], by simp [start],
    by simp [start, Coherent]⟩

end SshfsState

open SshfsState

/-- A run all of whose steps are safe goes on and is coherent in every state. -/
theorem coherent_throughout (opts : CacheOpts) (object : ℕ) (now : ℤ) (files : Path → Option ℕ)
    (nextFile : ℕ) (hfiles : ∀ q f, files q = some f → f < nextFile) (es : List CacheEvent)
    (hsafe : ∀ pre e, pre ++ [e] <+: es → ∀ s,
      run (step opts object) (start now files nextFile) pre = .ok s → s.StepSafe object e) :
    ∀ pre, pre <+: es →
      ∃ s, run (step opts object) (start now files nextFile) pre = .ok s ∧ Coherent s := by
  intro pre hpre
  obtain ⟨s, hs, hinv⟩ := run_guarded SshfsState.Inv (SshfsState.StepSafe object)
    (fun _ _ h hs => step_inv h hs) (start_inv hfiles) pre fun p e hp => hsafe p e (hp.trans hpre)
  exact ⟨s, hs, hinv.coherent⟩

def rootFile : Path → Option ℕ := fun path => if path = [slash] then some 0 else none

/-- A file that is looked at, truncated and looked at twice. -/
def truncatedFile : List CacheEvent :=
  [.call 0 (.getattr [slash]), .resume 0 true, .serveAttrs 0 true, .resume 0 true,
    .call 1 (.truncate [slash]), .serve 1 true, .resume 1 true, .call 0 (.getattr [slash]),
    .resume 0 true, .serveAttrs 0 true, .resume 0 true, .call 0 (.getattr [slash])]

theorem coherent_truncatedFile :
    ∃ s, run (step {} handleSize) (start 0 rootFile 1) truncatedFile = .ok s ∧ Coherent s := by
  have hfiles : ∀ q f, rootFile q = some f → f < 1 := by
    intro q f hf
    unfold rootFile at hf
    split_ifs at hf
    obtain rfl := Option.some.inj hf
    exact Nat.one_pos
  exact coherent_throughout {} handleSize 0 rootFile 1 hfiles truncatedFile
    (guard_of_tested (SshfsState.StepSafe handleSize) (by decide +kernel)) truncatedFile
    (List.prefix_refl _)

def racingTruncate : List CacheEvent :=
  [.call 0 (.getattr [slash]), .resume 0 true, .serveAttrs 0 true, .call 1 (.truncate [slash]),
    .serve 1 true, .resume 1 true, .resume 0 true, .call 0 (.getattr [slash])]

/-- The `truncate` has returned in step 5, and the `getattr` of step 7 is answered with the stat
that the first one fetched in step 2 and put into the cache in step 6. -/
theorem incoherent_racingTruncate :
    ∃ s, run (step {} handleSize) (start 0 rootFile 1) racingTruncate = .ok s ∧
      s.answers = [⟨some 0, 7, 2⟩, ⟨some 0, 0, 2⟩] ∧ s.mods = [⟨0, 3, 5⟩] ∧ ¬ Coherent s := by
  have hview : (run (step {} handleSize) (start 0 rootFile 1) racingTruncate).map
      (fun s => (s.answers, s.mods)) =
        .ok ([⟨some 0, 7, 2⟩, ⟨some 0, 0, 2⟩], [⟨0, 3, 5⟩]) := by
    decide +kernel
  cases hrun : run (step {} handleSize) (start 0 rootFile 1) racingTruncate with
  | error f =>
    rw [hrun] at hview
    cases hview
  | ok s =>
    have hboth := map_ok hview hrun
    obtain ⟨hans, hmods⟩ := Prod.mk.inj hboth
    refine ⟨s, rfl, hans, hmods, fun hcoh => ?_⟩
    have := hcoh ⟨some 0, 7, 2⟩ (by simp [hans]) ⟨0, 3, 5⟩ (by simp [hmods]) (by decide) rfl
    exact absurd this (by decide)

end Defuse
