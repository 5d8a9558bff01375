import Mathlib.Data.List.Basic
import Mathlib.Data.BitVec
import GoExperiments.Lib.GoBasic

/-!
# Addresses of the DHCP server

What `opendhcpd` uses of Go's `net` package and of `krolaw/dhcp4` to compute
with addresses.  A `net.IP` is a byte slice of any length; an IPv4 address is the
32-bit value of its four bytes, most significant first.

* `IPv4.bytes`, `bigEndianUint32` — an address as a slice and back
  (`bigEndianUint32_bytes`, `bytes_inj`).
* `to4`, `ipEqual`, `isGlobalUnicast` — the methods of `net.IP` the server calls.
* `ipAdd`, `ipRange` — the two address functions of `dhcp4`: addition modulo
  `2 ^ 32`, and the *signed* distance plus one.  `toNat_ipAdd` and
  `ipRange_ipAdd` say when the second undoes the first.
* `hardwareAddrString` — the text under which a client is known;
  `hardwareAddrString_inj`: no two hardware addresses share it.
-/

namespace Dhcp

open Go

/-- An IPv4 address as a 32-bit value. -/
abbrev IPv4 := BitVec 32

/-- `binary.BigEndian.Uint32`, on the four bytes of an address. -/
def bigEndianUint32 (b : Bytes) : IPv4 :=
  BitVec.ofNat 32 (b.foldl (fun acc x => acc * 256 + x.toNat) 0)

/-- The four bytes of an address. -/
def IPv4.bytes (ip : IPv4) : Bytes :=
  [UInt8.ofNat (ip.toNat / 2 ^ 24), UInt8.ofNat (ip.toNat / 2 ^ 16),
    UInt8.ofNat (ip.toNat / 2 ^ 8), UInt8.ofNat ip.toNat]

@[simp] theorem IPv4.length_bytes (ip : IPv4) : (IPv4.bytes ip).length = 4 := rfl

@[simp] theorem bigEndianUint32_bytes (ip : IPv4) : bigEndianUint32 (IPv4.bytes ip) = ip := by
  have hlt := ip.isLt
  refine BitVec.eq_of_toNat_eq ?_
  simp only [bigEndianUint32, IPv4.bytes, List.foldl_cons, List.foldl_nil, BitVec.toNat_ofNat,
    UInt8.toNat_ofNat']
  omega

theorem bytes_inj {a b : IPv4} : IPv4.bytes a = IPv4.bytes b ↔ a = b := by
  constructor
  · intro h
    rw [← bigEndianUint32_bytes a, h, bigEndianUint32_bytes]
  · rintro rfl; rfl

theorem toNat_pos {ip : IPv4} (h : ip ≠ 0) : 0 < ip.toNat := by
  rcases Nat.eq_zero_or_pos ip.toNat with h0 | hpos
  · exact absurd (BitVec.eq_of_toNat_eq h0) h
  · exact hpos

/-- A four-byte slice is the slice of its value. -/
theorem bytes_bigEndianUint32 {b : Bytes} (h : b.length = 4) :
    IPv4.bytes (bigEndianUint32 b) = b := by
  match b, h with
  | [x, y, z, w], _ =>
    have hx := x.toNat_lt
    have hy := y.toNat_lt
    have hz := z.toNat_lt
    have hw := w.toNat_lt
    have hval : (bigEndianUint32 [x, y, z, w]).toNat
        = ((x.toNat * 256 + y.toNat) * 256 + z.toNat) * 256 + w.toNat := by
      simp only [bigEndianUint32, List.foldl_cons, List.foldl_nil, BitVec.toNat_ofNat]
      omega
    simp only [IPv4.bytes, hval, List.cons.injEq, and_true]
    refine ⟨?_, ?_, ?_, ?_⟩ <;>
    · refine UInt8.toNat_inj.1 ?_
      rw [UInt8.toNat_ofNat']
      omega

/-! ## The methods of `net.IP` -/

/-- The twelve bytes in front of an IPv4 address written as an IPv6 one. -/
def v4InV6 : Bytes := [0, 0, 0, 0, 0, 0, 0, 0, 0, 0, 0xff, 0xff]

/-- `IP.To4`: the value of a slice that is an IPv4 address, in either form. -/
def to4 (ip : Bytes) : Option IPv4 :=
  if ip.length = 4 then some (bigEndianUint32 ip)
  else if ip.length = 16 ∧ ip.take 12 = v4InV6 then some (bigEndianUint32 (ip.drop 12))
  else none

/-- `IP.Equal`: an IPv4 address and the same address in IPv6 form are equal. -/
def ipEqual (ip x : Bytes) : Bool :=
  if ip.length = x.length then ip == x
  else if ip.length = 4 ∧ x.length = 16 then x.take 12 == v4InV6 && ip == x.drop 12
  else if ip.length = 16 ∧ x.length = 4 then ip.take 12 == v4InV6 && ip.drop 12 == x
  else false

/-- `net.IPv4zero`, which the library keeps in its sixteen-byte form. -/
def ipv4zero : Bytes := v4InV6 ++ [0, 0, 0, 0]

/-- `net.IPv4bcast`. -/
def ipv4bcast : Bytes := v4InV6 ++ [255, 255, 255, 255]

/-- `net.IPv6unspecified`. -/
def ipv6unspecified : Bytes := List.replicate 16 0

/-- `net.IPv6loopback`. -/
def ipv6loopback : Bytes := List.replicate 15 0 ++ [1]

/-- `IP.IsGlobalUnicast`. -/
def isGlobalUnicast (ip : Bytes) : Bool :=
  let byte (i : ℕ) : ℕ := (ip.getD i 0).toNat
  let isLoopback : Bool := match to4 ip with
    | some v => (IPv4.bytes v).headD 0 == 127
    | none => ipEqual ip ipv6loopback
  let isMulticast : Bool := match to4 ip with
    | some v => v.toNat / 2 ^ 28 == 14
    | none => ip.length == 16 && byte 0 == 0xff
  let isLinkLocalUnicast : Bool := match to4 ip with
    | some v => v.toNat / 2 ^ 16 == 169 * 256 + 254
    | none => ip.length == 16 && byte 0 == 0xfe && byte 1 / 64 == 2
  (ip.length == 4 || ip.length == 16) && !ipEqual ip ipv4bcast &&
    !(ipEqual ip ipv4zero || ipEqual ip ipv6unspecified) && !isLoopback && !isMulticast &&
    !isLinkLocalUnicast

/-- A four-byte address equals `net.IPv4zero` exactly when its value is zero. -/
theorem ipEqual_bytes_ipv4zero (ip : IPv4) : ipEqual (IPv4.bytes ip) ipv4zero = true ↔ ip = 0 := by
  have hbytes : IPv4.bytes (0 : IPv4) = [0, 0, 0, 0] := by decide
  rw [← bytes_inj, hbytes]
  simp [ipEqual, ipv4zero, v4InV6]

/-! ## The address functions of `dhcp4` -/

/-- `dhcp4.IPAdd`: addition modulo `2 ^ 32`. -/
def ipAdd (start : IPv4) (add : ℤ) : IPv4 := start + BitVec.ofInt 32 add

/-- `dhcp4.IPRange`: how many addresses there are from `start` to `stop`
inclusive, as a signed integer. -/
def ipRange (start stop : IPv4) : ℤ := (stop.toNat : ℤ) - (start.toNat : ℤ) + 1

theorem toNat_ipAdd_emod (start : IPv4) (add : ℤ) :
    ((ipAdd start add).toNat : ℤ) = ((start.toNat : ℤ) + add) % 2 ^ 32 := by
  have h : (BitVec.ofInt 32 add).toNat = (add % 2 ^ 32).toNat := BitVec.toNat_ofInt ..
  rw [ipAdd, BitVec.toNat_add, h]
  omega

theorem ipAdd_eq_zero {start : IPv4} {add : ℤ} (h : ((start.toNat : ℤ) + add) % 2 ^ 32 = 0) :
    ipAdd start add = 0 := by
  have hval := toNat_ipAdd_emod start add
  refine BitVec.eq_of_toNat_eq ?_
  rw [h] at hval
  exact Int.ofNat_inj.1 hval

/-- Below the end of the address space `IPAdd` does not wrap. -/
theorem toNat_ipAdd {start : IPv4} {add : ℤ} (h0 : 0 ≤ add)
    (h : (start.toNat : ℤ) + add < 2 ^ 32) :
    ((ipAdd start add).toNat : ℤ) = (start.toNat : ℤ) + add := by
  rw [toNat_ipAdd_emod]
  exact Int.emod_eq_of_lt (by omega) h

/-- Below the end of the address space, `IPRange` recovers the number added. -/
theorem ipRange_ipAdd {start : IPv4} {add : ℤ} (h0 : 0 ≤ add)
    (h : (start.toNat : ℤ) + add < 2 ^ 32) : ipRange start (ipAdd start add) - 1 = add := by
  rw [ipRange, toNat_ipAdd h0 h]
  omega

/-- And an address at or above `start` is `start` plus its distance. -/
theorem ipAdd_ipRange {start ip : IPv4} (h : 0 ≤ ipRange start ip - 1) :
    ipAdd start (ipRange start ip - 1) = ip := by
  have hlt := ip.isLt
  rw [ipRange] at h
  refine BitVec.eq_of_toNat_eq ?_
  have hadd : ((ipAdd start (ipRange start ip - 1)).toNat : ℤ)
      = (start.toNat : ℤ) + (ipRange start ip - 1) := by
    refine toNat_ipAdd ?_ ?_ <;> rw [ipRange] <;> omega
  rw [ipRange] at hadd
  rw [ipRange]
  omega

/-! ## Hardware addresses -/

/-- `HardwareAddr.String`: two lower-case hexadecimal digits a byte, separated by
colons. -/
def hardwareAddrString (a : Bytes) : String :=
  String.intercalate ":"
    (a.map fun b => String.ofList (hexChars b))

theorem toList_hardwareAddrString (a : Bytes) :
    (hardwareAddrString a).toList = [':'].intercalate (a.map hexChars) := by
  rw [hardwareAddrString, String.toList_intercalate, List.map_map]
  refine congrArg₂ _ rfl (List.map_congr_left fun b _ => ?_)
  exact String.toList_ofList

theorem intercalate_hexChars_inj : ∀ {a b : Bytes},
    [':'].intercalate (a.map hexChars) = [':'].intercalate (b.map hexChars) → a = b
  | [], [], _ => rfl
  | [], [_], h => by simp [hexChars] at h
  | [], _ :: _ :: _, h => by simp [List.intercalate_cons_cons] at h
  | [_], [], h => by simp [hexChars] at h
  | _ :: _ :: _, [], h => by simp [List.intercalate_cons_cons] at h
  | [x], [y], h => by
      have hxy : hexChars x = hexChars y := by simpa using h
      rw [hexChars_inj hxy]
  | [x], y :: y' :: ys, h => by
      have hlen := congrArg List.length h
      simp [List.intercalate_cons_cons, hexChars] at hlen
  | x :: x' :: xs, [y], h => by
      have hlen := congrArg List.length h
      simp [List.intercalate_cons_cons, hexChars] at hlen
  | x :: x' :: xs, y :: y' :: ys, h => by
      simp only [List.map_cons, List.intercalate_cons_cons, List.append_assoc] at h
      obtain ⟨hxy, hrest⟩ := List.append_inj h rfl
      obtain ⟨-, htail⟩ := List.append_inj hrest rfl
      have hxs : x' :: xs = y' :: ys := intercalate_hexChars_inj htail
      rw [hexChars_inj hxy, hxs]

/-- Two clients known under one text have one hardware address. -/
theorem hardwareAddrString_inj {a b : Bytes} :
    hardwareAddrString a = hardwareAddrString b ↔ a = b := by
  constructor
  · intro h
    refine intercalate_hexChars_inj ?_
    rw [← toList_hardwareAddrString, h, toList_hardwareAddrString]
  · rintro rfl
    rfl

end Dhcp
