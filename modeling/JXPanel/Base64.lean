import Mathlib.Data.List.Nodup

set_option autoImplicit true

/-! Bytes written as characters, six bits in each. -/

namespace Base64

def alphabet : List Char :=
  "ABCDEFGHIJKLMNOPQRSTUVWXYZabcdefghijklmnopqrstuvwxyz0123456789+/".toList

def digit (n : Nat) : Char := alphabet.getD n '='

/-- The last group is filled up with `=`. -/
def encode : List UInt8 → List Char
  | [] => []
  | [a] => [digit (a.toNat / 4), digit (a.toNat % 4 * 16), '=', '=']
  | [a, b] =>
    [digit (a.toNat / 4), digit (a.toNat % 4 * 16 + b.toNat / 16), digit (b.toNat % 16 * 4), '=']
  | a :: b :: c :: bs =>
    digit (a.toNat / 4) :: digit (a.toNat % 4 * 16 + b.toNat / 16) ::
      digit (b.toNat % 16 * 4 + c.toNat / 64) :: digit (c.toNat % 64) :: encode bs

def utf8 (text : List Char) : List UInt8 := text.flatMap String.utf8EncodeChar

example : encode (utf8 "any?~".toList) = "YW55P34=".toList := by decide +kernel

theorem digit_mem (n : Nat) : digit n ∈ '=' :: alphabet := by
  rw [digit, List.getD_eq_getElem?_getD]
  cases h : alphabet[n]? with
  | none => exact List.mem_cons_self
  | some c => exact List.mem_cons_of_mem _ (List.mem_of_getElem? h)

theorem encode_subset (bs : List UInt8) : encode bs ⊆ '=' :: alphabet := by
  intro d hd
  induction bs using encode.induct with
  | case1 => cases hd
  | case2 a =>
    simp only [encode, List.mem_cons, List.not_mem_nil, or_false] at hd
    rcases hd with rfl | rfl | rfl | rfl
    · exact digit_mem _
    · exact digit_mem _
    · exact List.mem_cons_self
    · exact List.mem_cons_self
  | case3 a b =>
    simp only [encode, List.mem_cons, List.not_mem_nil, or_false] at hd
    rcases hd with rfl | rfl | rfl | rfl
    · exact digit_mem _
    · exact digit_mem _
    · exact digit_mem _
    · exact List.mem_cons_self
  | case4 a b c bs ih =>
    rw [encode] at hd
    simp only [List.mem_cons] at hd
    rcases hd with rfl | rfl | rfl | rfl | hd
    · exact digit_mem _
    · exact digit_mem _
    · exact digit_mem _
    · exact digit_mem _
    · exact ih hd

/-- The first character stands for the first six bits. -/
theorem head_encode (a : UInt8) (bs : List UInt8) :
    (encode (a :: bs)).head? = some (digit (a.toNat / 4)) := by
  cases bs with
  | nil => rfl
  | cons b bs =>
    cases bs with
    | nil => rfl
    | cons c bs => rfl

theorem alphabet_nodup : ('=' :: alphabet).Nodup := by decide +kernel

theorem length_alphabet : alphabet.length = 64 := rfl

theorem digit_of_lt_length {n : Nat} (h : n < alphabet.length) : digit n = alphabet[n] := by
  rw [digit, List.getD_eq_getElem?_getD, List.getElem?_eq_getElem h]
  rfl

theorem digit_inj {n m : Nat} (hn : n < 64) (hm : m < 64) : digit n = digit m ↔ n = m := by
  have hnodup := (List.nodup_cons.1 alphabet_nodup).2
  rw [digit_of_lt_length (length_alphabet ▸ hn), digit_of_lt_length (length_alphabet ▸ hm)]
  exact List.Nodup.getElem_inj_iff hnodup

theorem digit_ne_pad {n : Nat} (hn : n < 64) : digit n ≠ '=' := by
  have hpad := (List.nodup_cons.1 alphabet_nodup).1
  rw [digit_of_lt_length (length_alphabet ▸ hn)]
  intro he
  exact hpad (he ▸ List.getElem_mem _)

theorem digit_of_lt {n : Nat} (h : n < 62) : digit n ≠ '=' ∧ digit n ≠ '+' := by
  refine ⟨digit_ne_pad (by omega), ?_⟩
  have hplus : digit 62 = '+' := rfl
  rw [← hplus]
  intro he
  have heq := (digit_inj (by omega) (by omega)).1 he
  omega

/-- A character's first byte is below those that text never has. -/
theorem first_byte_lt (c : Char) : ∃ a bs, String.utf8EncodeChar c = a :: bs ∧ a.toNat < 248 := by
  unfold String.utf8EncodeChar
  dsimp only
  split
  · refine ⟨_, _, rfl, ?_⟩
    rw [UInt8.toNat_ofNat']
    omega
  · split
    · refine ⟨_, _, rfl, ?_⟩
      rw [UInt8.toNat_ofNat']
      omega
    · split
      · refine ⟨_, _, rfl, ?_⟩
        rw [UInt8.toNat_ofNat']
        omega
      · refine ⟨_, _, rfl, ?_⟩
        rw [UInt8.toNat_ofNat']
        omega

/-- What a text that is not empty is written as begins with a letter or a digit. -/
theorem head_encode_utf8 {text : List Char} (h : text ≠ []) :
    ∃ n < 62, (encode (utf8 text)).head? = some (digit n) := by
  cases text with
  | nil => exact (h rfl).elim
  | cons c text =>
    obtain ⟨a, bs, hc, ha⟩ := first_byte_lt c
    refine ⟨a.toNat / 4, by omega, ?_⟩
    rw [utf8, List.flatMap_cons, hc]
    exact head_encode a _

/-- The numbers of six bits that the characters stand for. -/
def sextets : List UInt8 → List Nat
  | [] => []
  | [a] => [a.toNat / 4, a.toNat % 4 * 16]
  | [a, b] => [a.toNat / 4, a.toNat % 4 * 16 + b.toNat / 16, b.toNat % 16 * 4]
  | a :: b :: c :: bs =>
    a.toNat / 4 :: (a.toNat % 4 * 16 + b.toNat / 16) :: (b.toNat % 16 * 4 + c.toNat / 64) :: c.toNat % 64 :: sextets bs

theorem lt_of_mem_sextets {bs : List UInt8} {n : Nat} (h : n ∈ sextets bs) : n < 64 := by
  have hlt : ∀ a : UInt8, a.toNat < 256 := fun a => a.toNat_lt
  induction bs using sextets.induct with
  | case1 => cases h
  | case2 a =>
    have ha := hlt a
    simp only [sextets, List.mem_cons, List.not_mem_nil, or_false] at h
    omega
  | case3 a b =>
    have ha := hlt a
    have hb := hlt b
    simp only [sextets, List.mem_cons, List.not_mem_nil, or_false] at h
    omega
  | case4 a b c bs ih =>
    have ha := hlt a
    have hb := hlt b
    have hc := hlt c
    simp only [sextets, List.mem_cons] at h
    rcases h with h | h | h | h | h
    · omega
    · omega
    · omega
    · omega
    · exact ih h

/-- The characters that fill up the last group are the only ones that stand for nothing. -/
theorem encode_without_pad (bs : List UInt8) :
    (encode bs).filter (fun c => decide (c ≠ '=')) = (sextets bs).map digit := by
  have hkept : ∀ n ∈ sextets bs, digit n ≠ '=' := fun n hn => digit_ne_pad (lt_of_mem_sextets hn)
  induction bs using sextets.induct with
  | case1 => rfl
  | case2 a =>
    simp only [sextets, List.forall_mem_cons] at hkept
    simp [encode, sextets, hkept]
  | case3 a b =>
    simp only [sextets, List.forall_mem_cons] at hkept
    simp [encode, sextets, hkept]
  | case4 a b c bs ih =>
    simp only [sextets, List.forall_mem_cons] at hkept
    simp only [encode, sextets, List.map_cons, List.filter_cons]
    rw [if_pos (decide_eq_true hkept.1), if_pos (decide_eq_true hkept.2.1), if_pos (decide_eq_true hkept.2.2.1),
      if_pos (decide_eq_true hkept.2.2.2.1), ih hkept.2.2.2.2]

/-! Reading. -/

/-- Two characters more than those of the alphabet are read; all others are skipped. -/
def value (c : Char) : Option Nat :=
  if c = '-' then some 62 else if c = '_' then some 63 else alphabet.idxOf? c

def bytes : List Nat → List UInt8
  | a :: b :: c :: d :: ns =>
    .ofNat (a * 4 + b / 16) :: .ofNat (b % 16 * 16 + c / 4) :: .ofNat (c % 4 * 64 + d) :: bytes ns
  | [a, b, c] => [.ofNat (a * 4 + b / 16), .ofNat (b % 16 * 16 + c / 4)]
  | [a, b] => [.ofNat (a * 4 + b / 16)]
  | _ => []

def decode (cs : List Char) : List UInt8 := bytes (cs.filterMap value)

/-- The characters of bytes that are a text. -/
def fromUtf8 (bs : List UInt8) : Option (List Char) := bs.toByteArray.utf8Decode?.map Array.toList

theorem value_digit {n : Nat} (h : n < 64) : value (digit n) = some n := by
  have hall : ∀ n < 64, value (digit n) = some n := by decide +kernel
  exact hall n h

theorem byte_eq {a : UInt8} {n : Nat} (h : n = a.toNat) : UInt8.ofNat n = a := by
  rw [h, UInt8.ofNat_toNat]

theorem bytes_sextets (bs : List UInt8) : bytes (sextets bs) = bs := by
  have hlt : ∀ a : UInt8, a.toNat < 256 := fun a => a.toNat_lt
  induction bs using sextets.induct with
  | case1 => rfl
  | case2 a =>
    have ha := hlt a
    rw [sextets, bytes, byte_eq (a := a) (by omega)]
  | case3 a b =>
    have ha := hlt a
    have hb := hlt b
    rw [sextets, bytes, byte_eq (a := a) (by omega), byte_eq (a := b) (by omega)]
  | case4 a b c bs ih =>
    have ha := hlt a
    have hb := hlt b
    have hc := hlt c
    rw [sextets, bytes, byte_eq (a := a) (by omega), byte_eq (a := b) (by omega), byte_eq (a := c) (by omega), ih]

/-- What was written is read back. -/
theorem decode_encode (bs : List UInt8) : decode (encode bs) = bs := by
  have hpad : ∀ cs : List Char, (cs.filter fun c => decide (c ≠ '=')).filterMap value = cs.filterMap value := by
    intro cs
    have hnone : value '=' = none := rfl
    induction cs with
    | nil => rfl
    | cons c cs ih =>
      by_cases hc : c = '='
      · rw [hc, List.filterMap_cons_none hnone, ← ih]
        rfl
      · rw [List.filter_cons, if_pos (decide_eq_true hc), List.filterMap_cons, List.filterMap_cons, ih]
  have hdigits : ∀ ns : List Nat, (∀ n ∈ ns, n < 64) → (ns.map digit).filterMap value = ns := by
    intro ns hns
    induction ns with
    | nil => rfl
    | cons n ns ih =>
      obtain ⟨hn, hrest⟩ := List.forall_mem_cons.1 hns
      rw [List.map_cons, List.filterMap_cons_some (value_digit hn), ih hrest]
  rw [decode, ← hpad, encode_without_pad, hdigits _ fun n => lt_of_mem_sextets, bytes_sextets]

theorem fromUtf8_utf8 (text : List Char) : fromUtf8 (utf8 text) = some text := by
  have hencode : (utf8 text).toByteArray = text.utf8Encode := rfl
  rw [fromUtf8, hencode, List.utf8Decode?_utf8Encode]
  rfl

end Base64
