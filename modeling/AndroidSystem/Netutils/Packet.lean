import AndroidSystem.Lib.Machine

/-!
# Reception of DHCP packets

A model of `receive_packet` of `packet.c`. A packet has three lengths: the number of bytes read, the
total length in its IP header and the length in its UDP header. The second is compared with the
first, the third with neither, and it is the third that says how much is copied.
-/

namespace AndroidSystem.Netutils

def sizeofDhcpMsg : Nat := 1260

/-- What `read` has put into a `struct dhcp_packet`: the two headers and a `struct dhcp_msg`. -/
structure Packet where
  bytes : List UInt8
  length_le : bytes.length ≤ 28 + sizeofDhcpMsg

namespace Packet

variable (p : Packet)

/-- The byte at an offset of the packet. -/
def byte (i : Nat) : Nat := (p.bytes.getD i 0).toNat

def ntohs (i : Nat) : Nat := 256 * p.byte i + p.byte (i + 1)

def totLen : Nat := p.ntohs 2
def udpLen : Nat := p.ntohs 24

/-- `udp.check`, in the byte order of the machine. -/
def check : Nat := p.byte 26 + 256 * p.byte 27

/-- The packet with its IP header turned into the pseudo header of the UDP checksum. -/
def pseudo : List UInt8 :=
  [0, 0, p.bytes.getD 24 0, p.bytes.getD 25 0, 0, 0, 0, 0, 0, 17, 0, 0] ++
    (p.bytes.drop 12).take 14 ++ [0, 0] ++ p.bytes.drop 28

/-- The tests for `is_valid`, with a version and a header length that share a byte. -/
def isValid : Bool :=
  28 ≤ p.bytes.length && (p.byte 0 / 16 == 4 && p.byte 0 % 16 == 5) &&
    p.totLen ≤ p.bytes.length && p.byte 9 == 17 && p.ntohs 22 == 68

end Packet

/-! ## Checksums -/

/-- The first loop of `checksum`, on a little-endian machine. It is `none` if the loop leaves the
buffer. -/
def sumWords : Nat → List UInt8 → Nat → Option Nat
  | 0, _, sum => some sum
  | 1, a :: _, sum => some (u32 (sum + a.toNat))
  | count + 2, a :: b :: up, sum => sumWords count up (u32 (sum + (a.toNat + 256 * b.toNat)))
  | _, _, _ => none

/-- The second loop. It makes the sum smaller each time, so that `sum` rounds are enough. -/
def addCarries : Nat → Nat → Nat
  | 0, sum => sum
  | rounds + 1, sum =>
    if sum >>> 16 ≠ 0 then addCarries rounds (u32 (sum % 2 ^ 16 + sum >>> 16)) else sum

def checksum (buffer : List UInt8) (count startsum : Nat) : Option Nat :=
  (sumWords count buffer startsum).map fun sum => addCarries sum sum

/-- `~sum & 0xffff` -/
def finishSum (sum : Nat) : Nat := u16 (2 ^ 32 - 1 - sum)

namespace Packet

def ipSum (p : Packet) : Option Nat := (checksum p.bytes 20 0).map finishSum

def udpSum (p : Packet) : Option Nat :=
  (checksum p.pseudo p.totLen 0).map fun sum =>
    if finishSum sum = 0 then finishSum 0 else finishSum sum

end Packet

inductive Outcome where
  | rejected
  /-- `memcpy(msg, &packet.dhcp, dhcp_size)` -/
  | copied (dhcpSize : Int)
  deriving DecidableEq

/-- It is `none` if a checksum reads what was not read from the socket. -/
def receivePacket : Option Packet → Option Outcome
  | none => some .rejected
  | some p =>
    if !p.isValid then some .rejected
    else p.ipSum.bind fun sum =>
      if sum ≠ 0 then some .rejected
      else p.udpSum.bind fun sum =>
        if p.check ≠ sum then some .rejected else some (.copied (p.udpLen - 8))

/-! ## Bounds -/

/-- An offset of the packet is in the payload of its UDP datagram. -/
def Packet.InPayload (p : Packet) (i : Nat) : Prop := 28 ≤ i ∧ i < 20 + p.udpLen ∧ i < p.totLen

def Outcome.Bounded (p : Packet) : Outcome → Prop
  | rejected => True
  | copied n => 0 ≤ n ∧ n ≤ sizeofDhcpMsg ∧
      ∀ i : Nat, 28 ≤ i → i < 28 + n → i < p.bytes.length ∧ p.InPayload i

theorem sumWords_isSome {count : Nat} {buffer : List UInt8} (h : count ≤ buffer.length)
    (sum : Nat) : ∃ s, sumWords count buffer sum = some s := by
  fun_induction sumWords count buffer sum with
  | case1 | case2 => exact ⟨_, rfl⟩
  | case3 sum count a b up ih => exact ih (by simpa using h)
  | case4 count buffer sum h0 h1 h2 =>
    rcases count with _ | _ | count
    · exact (h0 rfl).elim
    · obtain ⟨a, up, rfl⟩ := List.exists_cons_of_length_pos h
      exact (h1 a up rfl rfl).elim
    · rcases buffer with _ | ⟨a, _ | ⟨b, up⟩⟩
      · simp at h
      · simp at h
      · exact (h2 count a b up rfl rfl).elim

namespace Packet

variable {p : Packet}

theorem length_pseudo (h : 28 ≤ p.bytes.length) : p.pseudo.length = p.bytes.length := by
  simp [pseudo]
  omega

/-- Both checksums stay in the bytes that were read. -/
theorem sums_isSome (h : p.isValid) : (∃ s, p.ipSum = some s) ∧ ∃ s, p.udpSum = some s := by
  simp only [isValid, Bool.and_eq_true, decide_eq_true_eq] at h
  obtain ⟨⟨⟨⟨hlen, -⟩, htot⟩, -⟩, -⟩ := h
  obtain ⟨s, hs⟩ := sumWords_isSome (show 20 ≤ p.bytes.length by omega) 0
  obtain ⟨t, ht⟩ := sumWords_isSome (htot.trans (length_pseudo hlen).ge) 0
  exact ⟨⟨_, by rw [ipSum, checksum, hs]; rfl⟩, _, by rw [udpSum, checksum, ht]; rfl⟩

/-- What is copied is in bounds if the UDP header has the length of a datagram in the packet. -/
theorem copied_bounded_iff (h : p.isValid) :
    (Outcome.copied (p.udpLen - 8)).Bounded p ↔
      8 ≤ p.udpLen ∧ (p.udpLen = 8 ∨ 20 + p.udpLen ≤ p.totLen) := by
  have hle := p.length_le
  simp only [isValid, Bool.and_eq_true, decide_eq_true_eq] at h
  unfold sizeofDhcpMsg at hle
  unfold Outcome.Bounded sizeofDhcpMsg InPayload
  constructor
  · rintro ⟨h0, -, hin⟩
    refine ⟨by omega, ?_⟩
    by_contra hno
    have hlast := hin (19 + p.udpLen) (by omega) (by omega)
    omega
  · rintro ⟨h0, hin⟩
    refine ⟨by omega, by omega, ?_⟩
    omega

end Packet

/-- Reception is bounded but for a packet with a wrong length and the right checksums. -/
theorem receivePacket_bounded_iff (p : Packet) :
    (∃ o, receivePacket (some p) = some o ∧ o.Bounded p) ↔
      (p.isValid → p.ipSum = some 0 → p.udpSum = some p.check →
        8 ≤ p.udpLen ∧ (p.udpLen = 8 ∨ 20 + p.udpLen ≤ p.totLen)) := by
  have hrejected : ∃ o, some Outcome.rejected = some o ∧ o.Bounded p := ⟨_, rfl, trivial⟩
  by_cases hvalid : p.isValid
  · obtain ⟨⟨s, hs⟩, t, ht⟩ := Packet.sums_isSome hvalid
    simp only [receivePacket, hvalid, hs, ht, Option.bind_some, Option.some.injEq, Bool.not_true,
      Bool.false_eq_true, forall_const]
    by_cases hip : s = 0
    · by_cases hudp : p.check = t
      · simp only [hip, hudp, ne_eq, not_true_eq_false, if_false, forall_const, Option.some.injEq,
          exists_eq_left']
        exact Packet.copied_bounded_iff hvalid
      · rw [if_neg (not_not.2 hip), if_pos hudp]
        exact iff_of_true hrejected fun _ h => absurd h.symm hudp
    · rw [if_pos hip]
      exact iff_of_true hrejected fun h => absurd h hip
  · simp only [receivePacket, hvalid]
    exact iff_of_true hrejected fun h => absurd h (by simp)

/-- The headers of a packet without payload, whose UDP header speaks of 992 bytes of it. -/
def emptyDatagram : Packet where
  bytes := [69, 0, 0, 28, 0, 0, 0, 0, 64, 17, 112, 209, 10, 0, 0, 1, 255, 255, 255, 255,
    0, 67, 0, 68, 3, 232, 237, 150]
  length_le := by decide

theorem receivePacket_copies_unread : receivePacket (some emptyDatagram) = some (.copied 992) ∧
    ¬(Outcome.copied 992).Bounded emptyDatagram := by
  refine ⟨by decide, ?_⟩
  intro h
  have hread := (h.2.2 28 le_rfl (by decide)).1
  exact absurd hread (by decide)

end AndroidSystem.Netutils
