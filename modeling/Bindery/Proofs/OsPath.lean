import Bindery.OsPath
import Mathlib

/-! The text that is shown for a path is the path itself if that is a text. -/

namespace Bindery

namespace Utf8

variable {s : Begun} {state : Option Begun} {b n : Nat} {x : UInt8} {bs : List UInt8}

/-- The numbers that may come of the bytes that have been read are those of characters, and not zero. -/
structure Begun.Sound (s : Begun) : Prop where
  follows : 0x80 ≤ s.low
  pos : 0 < (s.value * 64 + (s.low - 0x80)) * 64 ^ s.left
  scalar : (s.value * 64 + (s.high - 0x80) + 1) * 64 ^ s.left ≤ 0xD800 ∨
    0xE000 ≤ (s.value * 64 + (s.low - 0x80)) * 64 ^ s.left ∧
      (s.value * 64 + (s.high - 0x80) + 1) * 64 ^ s.left ≤ 0x110000

theorem begun?_sound (h : begun? b = some s) : 0x80 ≤ b ∧ s.Sound := by
  unfold begun? at h
  split_ifs at h <;> obtain rfl := Option.some.inj h <;> refine ⟨by omega, by simp, ?_, ?_⟩ <;>
    norm_num <;> omega

theorem Begun.Sound.push (hs : s.Sound) (hb : s.low ≤ b ∧ b ≤ s.high) (hleft : s.left = n + 1) :
    Begun.Sound ⟨s.push b, n, 0x80, 0xBF⟩ := by
  obtain ⟨hlow, hpos, hscalar⟩ := hs
  have hleast : (s.value * 64 + (s.low - 0x80)) * 64 ^ s.left ≤ s.push b * 64 * 64 ^ n := by
    rw [hleft, pow_succ', ← mul_assoc]
    exact Nat.mul_le_mul_right _ (Nat.mul_le_mul_right _ (by unfold Begun.push; have := hb.1; omega))
  have hmost : (s.push b + 1) * 64 * 64 ^ n ≤ (s.value * 64 + (s.high - 0x80) + 1) * 64 ^ s.left := by
    rw [hleft, pow_succ', ← mul_assoc]
    exact Nat.mul_le_mul_right _ (Nat.mul_le_mul_right _ (by unfold Begun.push; have := hb.2; omega))
  have hfirst : s.push b * 64 + (0x80 - 0x80) = s.push b * 64 := by omega
  have hlast : s.push b * 64 + (0xBF - 0x80) + 1 = (s.push b + 1) * 64 := by omega
  constructor <;> simp only [hfirst, hlast]
  · exact le_rfl
  · exact hpos.trans_le hleast
  · exact hscalar.imp hmost.trans fun ⟨hfrom, hto⟩ => ⟨hfrom.trans hleast, hmost.trans hto⟩

theorem Begun.Sound.char_ne (hs : s.Sound) (hb : s.low ≤ b ∧ b ≤ s.high) (hleft : s.left = 0) :
    Char.ofNat (s.push b) ≠ '\x00' := by
  obtain ⟨hlow, hpos, hscalar⟩ := hs
  obtain ⟨hfrom, hto⟩ := hb
  rw [hleft, pow_zero, mul_one] at hpos
  rw [hleft, pow_zero, mul_one, mul_one] at hscalar
  have hvalid : (s.push b).isValidChar := by
    unfold Begun.push Nat.isValidChar
    omega
  intro hzero
  have hnat : s.push b = 0 := by
    have h := congrArg Char.toNat hzero
    rwa [Char.toNat_ofNat, if_pos hvalid] at h
  unfold Begun.push at hnat
  omega

theorem begin_sound (b : Nat) : ('\x00' ∈ (begin b).1 → b = 0) ∧ ∀ s ∈ (begin b).2, s.Sound := by
  unfold begin
  split
  · next hlow =>
    have hvalid : b.isValidChar := .inl (by omega)
    refine ⟨fun h => ?_, nofun⟩
    have hnat := congrArg Char.toNat (List.mem_singleton.mp h).symm
    rwa [Char.toNat_ofNat, if_pos hvalid] at hnat
  · split
    · next s hs => exact ⟨nofun, fun t ht => Option.some.inj ht ▸ (begun?_sound hs).2⟩
    · exact ⟨fun h => absurd (List.mem_singleton.mp h) (by decide), nofun⟩

theorem step_sound (hs : ∀ s ∈ state, s.Sound) :
    ('\x00' ∈ (step b state).1 → b = 0) ∧ ∀ s ∈ (step b state).2, s.Sound := by
  cases state with
  | none => exact begin_sound b
  | some s =>
    have hs : s.Sound := hs s rfl
    unfold step
    dsimp only
    split
    · next hb =>
      split
      · next hleft => exact ⟨fun h => absurd (List.mem_singleton.mp h).symm (hs.char_ne hb hleft), nofun⟩
      · next n hleft => exact ⟨nofun, fun t ht => Option.some.inj ht ▸ hs.push hb hleft⟩
    · refine ⟨fun h => ?_, (begin_sound b).2⟩
      rcases List.mem_cons.mp h with h | h
      · exact absurd h (by decide)
      · exact (begin_sound b).1 h

theorem zero_mem_of_decode (hs : ∀ s ∈ state, s.Sound) (h : '\x00' ∈ decode state bs) : 0 ∈ bs := by
  induction bs generalizing state with
  | nil =>
    obtain ⟨s, -, hs⟩ := List.mem_map.mp h
    exact absurd hs (by decide)
  | cons x bs ih =>
    obtain ⟨hzero, hnext⟩ := step_sound (b := x.toNat) hs
    rcases List.mem_append.mp h with h | h
    · have hx : x = 0 := UInt8.toNat_inj.mp (hzero h)
      exact hx ▸ List.mem_cons_self
    · exact List.mem_cons_of_mem _ (ih hnext h)

theorem begun?_two (hfrom : 2 ≤ n) (hto : n < 32) : begun? (n + 0xC0) = some ⟨n, 0, 0x80, 0xBF⟩ := by
  have hbounds : 0xC2 ≤ n + 0xC0 ∧ n + 0xC0 ≤ 0xDF := ⟨by omega, by omega⟩
  simp [begun?, hbounds]

theorem begun?_three (h : n < 16) : begun? (n + 0xE0) =
    some ⟨n, 1, if n = 0 then 0xA0 else 0x80, if n = 0xD then 0x9F else 0xBF⟩ := by
  interval_cases n <;> rfl

theorem begun?_four (h : n < 5) : begun? (n + 0xF0) =
    some ⟨n, 2, if n = 0 then 0x90 else 0x80, if n = 4 then 0x8F else 0xBF⟩ := by
  interval_cases n <;> rfl

theorem decode_begun (hn : n < 0x100) (h : begun? n = some s) :
    decode none (UInt8.ofNat n :: bs) = decode (some s) bs := by
  have hnat : (UInt8.ofNat n).toNat = n := by rw [UInt8.toNat_ofNat', Nat.mod_eq_of_lt hn]
  have hhigh : ¬ n < 0x80 := Nat.not_lt.mpr (begun?_sound h).1
  simp [decode, step, begin, hnat, hhigh, h]

theorem Begun.push_six (s : Begun) (n : Nat) : s.push (n + 0x80) = s.value * 64 + n := by
  unfold push
  omega

/-- A byte behind others adds six bits. -/
theorem decode_six (hfrom : s.low ≤ n % 64 + 0x80) (hto : n % 64 + 0x80 ≤ s.high) :
    decode (some s) (UInt8.ofNat (n % 64 + 0x80) :: bs) =
      match s.left with
      | 0 => Char.ofNat (s.value * 64 + n % 64) :: decode none bs
      | left + 1 => decode (some ⟨s.value * 64 + n % 64, left, 0x80, 0xBF⟩) bs := by
  have hbyte : n % 64 + 0x80 < 2 ^ 8 := by omega
  have hnat : (UInt8.ofNat (n % 64 + 0x80)).toNat = n % 64 + 0x80 :=
    UInt8.toNat_ofNat'.trans (Nat.mod_eq_of_lt hbyte)
  have hbounds : s.low ≤ n % 64 + 0x80 ∧ n % 64 + 0x80 ≤ s.high := ⟨hfrom, hto⟩
  rw [decode, hnat, step, if_pos hbounds, s.push_six]
  cases s.left <;> rfl

/-- The bytes of a character are read as that character. -/
theorem decode_encode (c : Char) (bs : List UInt8) :
    decode none (String.utf8EncodeChar c ++ bs) = c :: decode none bs := by
  obtain ⟨v, hv⟩ : ∃ v, c.val.toNat = v := ⟨_, rfl⟩
  have hc : Char.ofNat v = c := hv ▸ Char.ofNat_toNat c
  have hvalid : v < 0xD800 ∨ 0xDFFF < v ∧ v < 0x110000 := hv ▸ c.valid
  unfold String.utf8EncodeChar
  simp only [hv]
  split_ifs with hone htwo hthree <;> simp only [List.cons_append, List.nil_append]
  · have hnat : (UInt8.ofNat v).toNat = v := by
      rw [UInt8.toNat_ofNat']
      omega
    have hlow : v < 0x80 := by omega
    simp [decode, step, begin, hnat, hlow, hc]
  · have hv' : v / 64 % 32 * 64 + v % 64 = v := by omega
    rw [decode_begun (by omega) (begun?_two (by omega) (by omega)), decode_six (by dsimp only; omega)
      (by dsimp only; omega)]
    simp only [hv', hc]
  · have hfrom : (if v / 4096 % 16 = 0 then 0xA0 else 0x80) ≤ v / 64 % 64 + 0x80 := by split <;> omega
    have hto : v / 64 % 64 + 0x80 ≤ if v / 4096 % 16 = 0xD then 0x9F else 0xBF := by split <;> omega
    have hv' : (v / 4096 % 16 * 64 + v / 64 % 64) * 64 + v % 64 = v := by omega
    rw [decode_begun (by omega) (begun?_three (by omega)), decode_six hfrom hto]
    dsimp only
    rw [decode_six (by dsimp only; omega) (by dsimp only; omega)]
    simp only [hv', hc]
  · have hfrom : (if v / 262144 % 8 = 0 then 0x90 else 0x80) ≤ v / 4096 % 64 + 0x80 := by split <;> omega
    have hto : v / 4096 % 64 + 0x80 ≤ if v / 262144 % 8 = 4 then 0x8F else 0xBF := by split <;> omega
    have hv' : ((v / 262144 % 8 * 64 + v / 4096 % 64) * 64 + v / 64 % 64) * 64 + v % 64 = v := by omega
    rw [decode_begun (by omega) (begun?_four (by omega)), decode_six hfrom hto]
    dsimp only
    rw [decode_six (by dsimp only; omega) (by dsimp only; omega)]
    dsimp only
    rw [decode_six (by dsimp only; omega) (by dsimp only; omega)]
    simp only [hv', hc]

end Utf8

namespace OsPath

variable {p q : OsPath} {text : String}

theorem lossy_ofText (text : String) : (ofText text).lossy = text := by
  have hdecode : ∀ cs : List Char, Utf8.decode none (cs.flatMap String.utf8EncodeChar) = cs := by
    intro cs
    induction cs with
    | nil => rfl
    | cons c cs ih => rw [List.flatMap_cons, Utf8.decode_encode, ih]
  rw [lossy, ofText, hdecode, String.ofList_toList]

/-- The path is the UTF-8 form of a text. -/
def IsText (p : OsPath) : Prop :=
  ∃ text, ofText text = p

theorem lossy_inj (hp : p.IsText) (hq : q.IsText) : p.lossy = q.lossy ↔ p = q := by
  obtain ⟨s, rfl⟩ := hp
  obtain ⟨t, rfl⟩ := hq
  rw [lossy_ofText, lossy_ofText]
  exact ⟨congrArg ofText, fun h => by rw [← lossy_ofText s, h, lossy_ofText]⟩

theorem zero_mem_of_lossy (h : '\x00' ∈ p.lossy.toList) : 0 ∈ p.bytes := by
  rw [lossy, String.toList_ofList] at h
  exact Utf8.zero_mem_of_decode (fun _ hs => absurd hs (by simp)) h

end OsPath

end Bindery
