import Defuse.Spec.HdfsRead

/-! `hadoop_rpc_receive_packets`: however a data node cuts its bytes into packets, they
reach the destination in order, and nothing outside the destination is touched. -/

namespace Defuse

open CSem

variable {dst len : ℕ}

def payload (ps : List Packet) : List UInt8 := ps.flatMap Packet.data

/-- The loop over `skipbytes` drops that many bytes of the packet, or all of it. -/
theorem skipLoop_eq (hlen : 0 < len) {buf : List UInt8} (hroom : dst + len ≤ buf.length) {limit : ℕ}
    (available : List UInt8) (hlimit : available.length < limit) (skip : ℕ) :
    ∃ buf', skipLoop dst len limit available skip buf =
        .ok (available.drop skip, skip - available.length, buf') ∧ AgreeOutside dst len buf buf' := by
  induction limit generalizing available skip buf with
  | zero => omega
  | succ limit ih =>
    unfold skipLoop
    split_ifs with hskip
    · obtain ⟨k, hk⟩ : ∃ k, k = min (min available.length skip) len := ⟨_, rfl⟩
      have hle : (available.take k).length ≤ len := by
        rw [List.length_take]
        omega
      have hagree := storeAt_agree hle hroom
      obtain ⟨buf', hrun, hagree'⟩ := ih (by rw [hagree.length_eq]; exact hroom)
        (available.drop k) (by rw [List.length_drop]; omega) (skip - k)
      refine ⟨buf', ?_, hagree.trans hagree'⟩
      dsimp only
      rw [← hk, storeAt_ok (by omega), ok_bind, hrun, List.drop_drop, List.length_drop,
        show k + (skip - k) = skip by omega,
        show skip - k - (available.length - k) = skip - available.length by omega]
    · refine ⟨buf, ?_, AgreeOutside.refl _ _ _⟩
      rcases Nat.eq_zero_or_pos skip with h0 | hpos
      · simp [h0]
      · have hnil : available = [] := by
          rw [← List.length_eq_zero_iff]
          omega
        simp [hnil]

theorem receiveAvailable_eq {buf : List UInt8} (hroom : dst + len ≤ buf.length)
    (available : List UInt8) :
    ∃ buf', receiveAvailable dst len available buf = .ok buf' ∧ AgreeOutside dst len buf buf' ∧
      buf'.take (dst + min available.length len) = buf.take dst ++ available.take len := by
  have hle : (available.take (min available.length len)).length ≤ len := by
    rw [List.length_take]
    omega
  have htake : available.take (min available.length len) = available.take len := by
    rw [List.take_eq_take_iff]
    omega
  unfold receiveAvailable
  refine ⟨_, ?_, storeAt_agree hle hroom, ?_⟩
  · split_ifs with hpos
    · exact storeAt_ok (by omega)
    · have hnil : available = [] := by
        rw [← List.length_eq_zero_iff]
        omega
      simp [hnil]
  · rw [List.take_left', htake]
    rw [List.length_append, List.length_take, List.length_take]
    omega

theorem payload_cons (p : Packet) (ps : List Packet) : payload (p :: ps) = p.data ++ payload ps := by
  simp [payload]

/-- The whole transfer: the destination receives the bytes behind the skipped ones. -/
theorem receiveLoop_eq {res : ℤ} (hres : 0 ≤ res) (ps : List Packet)
    (hlast : ∀ p ∈ ps.dropLast, p.lastPacketInBlock = false) (dst len skip : ℕ) {buf : List UInt8}
    (hroom : dst + len ≤ buf.length) (hlen : skip + len ≤ (payload ps).length) :
    receiveLoop res ps skip len dst buf =
      .ok (0, buf.take dst ++ ((payload ps).drop skip).take len ++ buf.drop (dst + len)) := by
  have hack : ∀ b, acknowledged res b = (0, b) := by
    intro b
    unfold acknowledged
    rw [if_neg (by omega)]
  induction ps generalizing buf dst len skip with
  | nil =>
    have h0 : len = 0 := by
      simp only [payload, List.flatMap_nil, List.length_nil] at hlen
      omega
    simp [receiveLoop, h0, hack]
  | cons p ps ih =>
    by_cases hpos : len > 0
    · rw [payload_cons, List.length_append] at hlen
      obtain ⟨b1, hskip, hagree⟩ := skipLoop_eq hpos hroom p.data (Nat.lt_succ_self _) skip
      have hroom1 : dst + len ≤ b1.length := by
        rw [hagree.length_eq]
        exact hroom
      obtain ⟨b2, hstore, hagree', htake⟩ := receiveAvailable_eq hroom1 (p.data.drop skip)
      have hlength : (p.data.drop skip).length = p.data.length - skip := List.length_drop
      rw [hlength] at htake
      rw [receiveLoop, if_pos hpos, hskip, ok_bind]
      dsimp only
      rw [hstore, ok_bind, hlength, payload_cons, List.drop_append, List.take_append, hlength]
      by_cases hl : p.lastPacketInBlock
      · -- the flagged packet is the last one and holds all that is missing
        have hps : ps = [] := by
          by_contra hne
          have := hlast p (by rw [List.dropLast_cons_of_ne_nil hne]; simp)
          rw [hl] at this
          cases this
        subst hps
        simp only [payload, List.flatMap_nil, List.length_nil] at hlen
        rw [Nat.min_eq_right (by omega)] at htake
        rw [if_pos hl, hack, ← List.take_append_drop (dst + len) b2, htake, hagree.before,
          hagree'.behind, hagree.behind, payload, List.flatMap_nil, List.drop_nil, List.take_nil,
          List.append_nil]
        rfl
      · have hlast' : ∀ q ∈ ps.dropLast, q.lastPacketInBlock = false := by
          intro q hq
          have hne : ps ≠ [] := by
            rintro rfl
            simp at hq
          exact hlast q (by rw [List.dropLast_cons_of_ne_nil hne]; simp [hq])
        have hroom2 : dst + min (p.data.length - skip) len + (len - min (p.data.length - skip) len) ≤
            b2.length := by
          rw [hagree'.length_eq]
          omega
        have hrec := ih hlast' _ _ (skip - p.data.length) hroom2 (by omega)
        rw [if_neg hl, hrec, htake, hagree.before,
          show dst + min (p.data.length - skip) len + (len - min (p.data.length - skip) len) =
            dst + len by omega, hagree'.behind, hagree.behind,
          show len - min (p.data.length - skip) len = len - (p.data.length - skip) by omega]
        simp
    · have h0 : len = 0 := by omega
      rw [receiveLoop, if_neg hpos, hack, h0]
      simp

/-- A transfer that breaks off, whatever it has delivered. -/
theorem receiveLoop_broken {res : ℤ} (hres : res < 0) (ps : List Packet) {buf : List UInt8}
    (dst len skip : ℕ) (hroom : dst + len ≤ buf.length) :
    ∃ buf', receiveLoop res ps skip len dst buf = .ok (res, buf') ∧ AgreeOutside dst len buf buf' := by
  have hack : ∀ b, acknowledged res b = (res, b) := by
    intro b
    unfold acknowledged
    rw [if_pos hres]
  induction ps generalizing buf dst len skip with
  | nil =>
    refine ⟨buf, ?_, AgreeOutside.refl _ _ _⟩
    unfold receiveLoop
    split_ifs
    · rfl
    · rw [hack]
      rfl
  | cons p ps ih =>
    by_cases hpos : len > 0
    · obtain ⟨b1, hskip, hagree⟩ := skipLoop_eq hpos hroom p.data (Nat.lt_succ_self _) skip
      have hroom1 : dst + len ≤ b1.length := by
        rw [hagree.length_eq]
        exact hroom
      obtain ⟨b2, hstore, hagree', -⟩ := receiveAvailable_eq hroom1 (p.data.drop skip)
      rw [receiveLoop, if_pos hpos, hskip, ok_bind]
      dsimp only
      rw [hstore, ok_bind]
      by_cases hl : p.lastPacketInBlock
      · rw [if_pos hl, hack]
        exact ⟨b2, rfl, hagree.trans hagree'⟩
      · rw [if_neg hl]
        have hroom2 : dst + min (p.data.drop skip).length len +
            (len - min (p.data.drop skip).length len) ≤ b2.length := by
          rw [hagree'.length_eq]
          omega
        obtain ⟨b3, hrec, hagree''⟩ := ih _ _ (skip - p.data.length) hroom2
        exact ⟨b3, hrec, (hagree.trans hagree').trans (hagree''.mono (by omega))⟩
    · rw [receiveLoop, if_neg hpos, hack]
      exact ⟨buf, rfl, AgreeOutside.refl _ _ _⟩

/-- A data node has cut the bytes into packets of any sizes and flagged the last one. -/
structure CutInto (bytes : List UInt8) (ps : List Packet) : Prop where
  payload_eq : payload ps = bytes
  flags : ps.map Packet.lastPacketInBlock = List.replicate (ps.length - 1) false ++ [true]

theorem CutInto.dropLast_unflagged {bytes : List UInt8} {ps : List Packet} (h : CutInto bytes ps) :
    ∀ p ∈ ps.dropLast, p.lastPacketInBlock = false := by
  have hflags : ps.dropLast.map Packet.lastPacketInBlock = List.replicate (ps.length - 1) false := by
    rw [List.map_dropLast, h.flags, List.dropLast_concat]
  intro p hp
  have hmem : p.lastPacketInBlock ∈ ps.dropLast.map Packet.lastPacketInBlock :=
    List.mem_map_of_mem hp
  rw [hflags] at hmem
  exact List.eq_of_mem_replicate hmem

/-- The `len` bytes behind the skipped ones arrive, whatever the packets. The destination
has room for `len` bytes and no more, and every store is checked against it. -/
theorem receivePackets_reassembles (bytes : List UInt8) (ps : List Packet) (res : ℤ)
    (skipbytes len : ℕ) (buf : List UInt8) (hcut : CutInto bytes ps) (hres : 0 ≤ res)
    (hbuf : buf.length = len) (hlen : skipbytes + len ≤ bytes.length) :
    receivePackets ⟨ps, res⟩ skipbytes len buf = .ok (0, (bytes.drop skipbytes).take len) := by
  unfold receivePackets
  have hroom : 0 + len ≤ buf.length := by omega
  have hfits : skipbytes + len ≤ (payload ps).length := by
    rw [hcut.payload_eq]
    exact hlen
  have hrest : buf.drop (0 + len) = [] := List.drop_eq_nil_of_le (by omega)
  rw [receiveLoop_eq hres ps hcut.dropLast_unflagged 0 len skipbytes hroom hfits, hrest,
    hcut.payload_eq, List.take_zero, List.nil_append, List.append_nil]

/-- Four bytes to skip and two to keep: the skip goes through an empty packet and ends
inside the last one. -/
theorem reassembles_across_packets :
    receivePackets ⟨[⟨[1, 2, 3], false⟩, ⟨[], false⟩, ⟨[4, 5, 6, 7], true⟩], 0⟩ 4 2 [0, 0] =
      .ok (0, [5, 6]) :=
  receivePackets_reassembles [1, 2, 3, 4, 5, 6, 7]
    [⟨[1, 2, 3], false⟩, ⟨[], false⟩, ⟨[4, 5, 6, 7], true⟩] 0 4 2 [0, 0] ⟨by decide, by decide⟩
    le_rfl rfl (by decide)

end Defuse
