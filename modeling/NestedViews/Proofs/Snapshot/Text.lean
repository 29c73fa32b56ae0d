import NestedViews.Proofs.Snapshot.Codec

/-! Texts are read back from UTF-8. Every character has just one encoding: the bounds of the second
byte leave out encodings that are too long, surrogates, and what is beyond the last character. -/

namespace NestedViews.Snapshot

variable {bytes rest : List UInt8} {index length more code n : Nat} {low high b b₁ b₂ b₃ : UInt8}
variable {c : Char}

section Chars

theorem toNat_char (h : n.isValidChar) : (Char.ofNat n).val.toNat = n := by
  rw [Char.ofNat, dif_pos h]
  rfl

theorem ofNat_toNat_char (c : Char) : Char.ofNat c.val.toNat = c :=
  Char.ofNat_toNat c

theorem ofNat_eq (h : n = b.toNat) : UInt8.ofNat n = b := by
  rw [h, UInt8.ofNat_toNat]

theorem decodeTail_zero_eq_ok : decodeTail index length 0 low high code bytes = .ok (n, rest) ↔
    code = n ∧ bytes = rest := by
  rw [decodeTail, Except.ok.injEq, Prod.mk.injEq]

theorem decodeTail_succ_eq_ok :
    decodeTail index length (more + 1) low high code bytes = .ok (n, rest) ↔
      ∃ b others, bytes = b :: others ∧ (low.toNat ≤ b.toNat ∧ b.toNat ≤ high.toNat) ∧
        decodeTail index (length + 1) more 0x80 0xBF (code * 64 + b.toNat % 64) others =
          .ok (n, rest) := by
  cases bytes with
  | nil => simp [decodeTail]
  | cons b others =>
    simp only [decodeTail, UInt8.le_iff_toNat_le, List.cons.injEq]
    split
    · rename_i hbounds
      constructor
      · exact fun h => ⟨b, others, ⟨rfl, rfl⟩, hbounds, h⟩
      · rintro ⟨_, _, ⟨rfl, rfl⟩, _, h⟩
        exact h
    · rename_i hbounds
      constructor
      · rintro ⟨⟩
      · rintro ⟨_, _, ⟨rfl, rfl⟩, h, _⟩
        exact absurd h hbounds

theorem decodeChar_eq_ok (hb : ¬ b < 0x80) : decodeChar index b bytes = .ok (c, rest) ↔
    ∃ more low high n, leadByte? b = some (more, low, high) ∧
      decodeTail index 1 more low high (b.toNat % Nat.pow 2 (6 - more)) bytes = .ok (n, rest) ∧
        c = .ofNat n := by
  rw [decodeChar, if_neg hb]
  cases leadByte? b with
  | none => simp
  | some lead =>
    obtain ⟨more, low, high⟩ := lead
    simp only [bind_eq_ok, Prod.exists, pure_eq_ok, Prod.mk.injEq, Option.some.injEq]
    constructor
    · rintro ⟨n, _, htail, rfl, rfl⟩
      exact ⟨more, low, high, n, ⟨rfl, rfl, rfl⟩, htail, rfl⟩
    · rintro ⟨_, _, _, n, ⟨rfl, rfl, rfl⟩, htail, rfl⟩
      exact ⟨n, rest, htail, rfl, rfl⟩

/-- A first byte, how many bytes are to follow it, and between which bounds the second one lies. -/
inductive Leads (b : Nat) : Nat → Nat → Nat → Prop
  | two : 0xC2 ≤ b → b ≤ 0xDF → Leads b 1 0x80 0xBF
  | three {low high : Nat} : 0xE0 ≤ b → b ≤ 0xEF → low = (if b = 0xE0 then 0xA0 else 0x80) →
      high = (if b = 0xED then 0x9F else 0xBF) → Leads b 2 low high
  | four {low high : Nat} : 0xF0 ≤ b → b ≤ 0xF4 → low = (if b = 0xF0 then 0x90 else 0x80) →
      high = (if b = 0xF4 then 0x8F else 0xBF) → Leads b 3 low high

theorem leadByte?_eq_some :
    leadByte? b = some (more, low, high) ↔ Leads b.toNat more low.toNat high.toNat := by
  have hinj : ∀ {x y : UInt8}, x = y ↔ x.toNat = y.toNat := UInt8.toNat_inj.symm
  unfold leadByte?
  simp only [UInt8.le_iff_toNat_le, hinj, UInt8.reduceToNat]
  constructor
  · intro h
    split_ifs at h <;> cases h
    · exact .two (by omega) (by omega)
    all_goals first
      | exact .three (by omega) (by omega) (by simp; omega) (by simp; omega)
      | exact .four (by omega) (by omega) (by simp; omega) (by simp; omega)
  · intro h
    have heq : ∀ {k : Nat} {x y : UInt8}, k = more → x.toNat = low.toNat → y.toNat = high.toNat →
        some (k, x, y) = some (more, low, high) := by
      rintro k x y rfl hlow hhigh
      rw [hinj.mpr hlow, hinj.mpr hhigh]
    generalize low.toNat = l, high.toNat = m at h heq
    cases h with
    | two => split_ifs <;> first | omega | exact heq rfl rfl rfl
    | three _ _ hl hm => split_ifs at hl hm ⊢ <;> first | omega | exact heq rfl hl.symm hm.symm
    | four _ _ hl hm => split_ifs at hl hm ⊢ <;> first | omega | exact heq rfl hl.symm hm.symm

theorem utf8EncodeChar_two (hn : 0x7F < n) (hn' : n ≤ 0x7FF) :
    String.utf8EncodeChar (.ofNat n) = [.ofNat (n / 64 % 32 + 192), .ofNat (n % 64 + 128)] := by
  rw [String.utf8EncodeChar, toNat_char (.inl (by omega)), if_neg (by omega), if_pos hn']

theorem utf8EncodeChar_three (hn : 0x7FF < n) (hn' : n ≤ 0xFFFF) (hvalid : n.isValidChar) :
    String.utf8EncodeChar (.ofNat n) =
      [.ofNat (n / 4096 % 16 + 224), .ofNat (n / 64 % 64 + 128), .ofNat (n % 64 + 128)] := by
  rw [String.utf8EncodeChar, toNat_char hvalid, if_neg (by omega), if_neg (by omega), if_pos hn']

theorem utf8EncodeChar_four (hn : 0xFFFF < n) (hvalid : n.isValidChar) :
    String.utf8EncodeChar (.ofNat n) = [.ofNat (n / 262144 % 8 + 240), .ofNat (n / 4096 % 64 + 128),
      .ofNat (n / 64 % 64 + 128), .ofNat (n % 64 + 128)] := by
  rw [String.utf8EncodeChar, toNat_char hvalid, if_neg (by omega), if_neg (by omega),
    if_neg (by omega)]

theorem exact_char (h : decodeChar index b bytes = .ok (c, rest)) :
    b :: bytes = String.utf8EncodeChar c ++ rest := by
  by_cases hb : b < 0x80
  · rw [decodeChar, if_pos hb] at h
    cases h
    simp only [UInt8.lt_iff_toNat_lt, UInt8.reduceToNat] at hb
    rw [String.utf8EncodeChar, toNat_char (.inl (by omega)), if_pos (by omega), UInt8.ofNat_toNat]
    rfl
  obtain ⟨more, low, high, n, hlead, htail, rfl⟩ := (decodeChar_eq_ok hb).mp h
  rw [leadByte?_eq_some] at hlead
  generalize hl : low.toNat = l at hlead
  generalize hm : high.toNat = m at hlead
  cases hlead with
  | two h₁ h₂ =>
    obtain ⟨b₁, _, rfl, hb₁, htail⟩ := decodeTail_succ_eq_ok.mp htail
    obtain ⟨hn, rfl⟩ := decodeTail_zero_eq_ok.mp htail
    have hpow : Nat.pow 2 (6 - 1) = 32 := rfl
    rw [hpow] at hn
    rw [utf8EncodeChar_two (by omega) (by omega), ofNat_eq (b := b) (by omega),
      ofNat_eq (b := b₁) (by omega)]
    rfl
  | three h₁ h₂ h₃ h₄ =>
    obtain ⟨b₁, _, rfl, hb₁, htail⟩ := decodeTail_succ_eq_ok.mp htail
    obtain ⟨b₂, _, rfl, hb₂, htail⟩ := decodeTail_succ_eq_ok.mp htail
    obtain ⟨hn, rfl⟩ := decodeTail_zero_eq_ok.mp htail
    have hpow : Nat.pow 2 (6 - 2) = 16 := rfl
    rw [hpow] at hn
    simp only [UInt8.reduceToNat] at hb₂
    have hwide : 0x80 ≤ b₁.toNat ∧ b₁.toNat ≤ 0xBF := by
      split_ifs at h₃ h₄ <;> omega
    have hvalid : 0x7FF < n ∧ n ≤ 0xFFFF ∧ n.isValidChar := by
      unfold Nat.isValidChar
      split_ifs at h₃ h₄ <;> omega
    rw [utf8EncodeChar_three hvalid.1 hvalid.2.1 hvalid.2.2, ofNat_eq (b := b) (by omega),
      ofNat_eq (b := b₁) (by omega), ofNat_eq (b := b₂) (by omega)]
    rfl
  | four h₁ h₂ h₃ h₄ =>
    obtain ⟨b₁, _, rfl, hb₁, htail⟩ := decodeTail_succ_eq_ok.mp htail
    obtain ⟨b₂, _, rfl, hb₂, htail⟩ := decodeTail_succ_eq_ok.mp htail
    obtain ⟨b₃, _, rfl, hb₃, htail⟩ := decodeTail_succ_eq_ok.mp htail
    obtain ⟨hn, rfl⟩ := decodeTail_zero_eq_ok.mp htail
    have hpow : Nat.pow 2 (6 - 3) = 8 := rfl
    rw [hpow] at hn
    simp only [UInt8.reduceToNat] at hb₂ hb₃
    have hwide : 0x80 ≤ b₁.toNat ∧ b₁.toNat ≤ 0xBF := by
      split_ifs at h₃ h₄ <;> omega
    have hvalid : 0xFFFF < n ∧ n.isValidChar := by
      unfold Nat.isValidChar
      split_ifs at h₃ h₄ <;> omega
    rw [utf8EncodeChar_four hvalid.1 hvalid.2, ofNat_eq (b := b) (by omega),
      ofNat_eq (b := b₁) (by omega), ofNat_eq (b := b₂) (by omega), ofNat_eq (b := b₃) (by omega)]
    rfl

theorem toNat_byte (h : n < 256) : (UInt8.ofNat n).toNat = n :=
  UInt8.toNat_ofNat_of_lt h

theorem Leads.le {b more low high : Nat} (h : Leads b more low high) : 0x80 ≤ b := by
  cases h <;> omega

theorem decodeChar_of_leads (hlead : Leads b.toNat more low.toNat high.toNat)
    (hcode : b.toNat % Nat.pow 2 (6 - more) = code)
    (htail : decodeTail index 1 more low high code bytes = .ok (n, rest)) :
    decodeChar index b bytes = .ok (.ofNat n, rest) := by
  have hb : ¬ b < 0x80 := by
    rw [UInt8.lt_iff_toNat_lt, Nat.not_lt]
    exact hlead.le
  exact (decodeChar_eq_ok hb).mpr
    ⟨_, _, _, n, leadByte?_eq_some.mpr hlead, hcode.symm ▸ htail, rfl⟩

theorem decodeTail_bits (hlow : low.toNat ≤ n % 64 + 128) (hhigh : n % 64 + 128 ≤ high.toNat) :
    decodeTail index length (more + 1) low high (n / 64) (.ofNat (n % 64 + 128) :: bytes) =
      decodeTail index (length + 1) more 0x80 0xBF n bytes := by
  have hb : (UInt8.ofNat (n % 64 + 128)).toNat = n % 64 + 128 := toNat_byte (by omega)
  have hcode : n / 64 * 64 + (n % 64 + 128) % 64 = n := by omega
  simp only [decodeTail, UInt8.le_iff_toNat_le, hb, hcode]
  rw [if_pos ⟨hlow, hhigh⟩]

theorem reads_two (hn : 0x7F < n) (hn' : n ≤ 0x7FF) :
    decodeChar index (.ofNat (n / 64 % 32 + 192)) (.ofNat (n % 64 + 128) :: rest) =
      .ok (.ofNat n, rest) := by
  have hb : (UInt8.ofNat (n / 64 % 32 + 192)).toNat = n / 64 % 32 + 192 := toNat_byte (by omega)
  have hlead : Leads (n / 64 % 32 + 192) 1 (0x80 : UInt8).toNat (0xBF : UInt8).toNat :=
    .two (by omega) (by omega)
  have hcode : (n / 64 % 32 + 192) % Nat.pow 2 (6 - 1) = n / 64 := by
    change _ % 32 = _
    omega
  rw [← hb] at hlead hcode
  apply decodeChar_of_leads hlead hcode
  rw [decodeTail_bits (by simp) (by simp; omega)]
  rfl

theorem exists_bound (p : Prop) [Decidable p] {x y : Nat} (hx : x < 256) (hy : y < 256) :
    ∃ b : UInt8, b.toNat = if p then x else y :=
  ⟨.ofNat (if p then x else y), toNat_byte (by split_ifs <;> assumption)⟩

theorem reads_three (hn : 0x7FF < n) (hn' : n ≤ 0xFFFF) (hvalid : n.isValidChar) :
    decodeChar index (.ofNat (n / 4096 % 16 + 224))
      (.ofNat (n / 64 % 64 + 128) :: .ofNat (n % 64 + 128) :: rest) = .ok (.ofNat n, rest) := by
  unfold Nat.isValidChar at hvalid
  have hb : (UInt8.ofNat (n / 4096 % 16 + 224)).toNat = n / 4096 % 16 + 224 := toNat_byte (by omega)
  obtain ⟨low, hlow⟩ :=
    exists_bound (n / 4096 % 16 + 224 = 0xE0) (x := 0xA0) (y := 0x80) (by decide) (by decide)
  obtain ⟨high, hhigh⟩ :=
    exists_bound (n / 4096 % 16 + 224 = 0xED) (x := 0x9F) (y := 0xBF) (by decide) (by decide)
  have hlead : Leads (n / 4096 % 16 + 224) 2 low.toNat high.toNat :=
    .three (by omega) (by omega) hlow hhigh
  have hcode : (n / 4096 % 16 + 224) % Nat.pow 2 (6 - 2) = n / 64 / 64 := by
    change _ % 16 = _
    omega
  rw [← hb] at hlead hcode
  apply decodeChar_of_leads hlead hcode
  have hbounds : low.toNat ≤ n / 64 % 64 + 128 ∧ n / 64 % 64 + 128 ≤ high.toNat := by
    rw [hlow, hhigh]
    split_ifs <;> omega
  rw [decodeTail_bits hbounds.1 hbounds.2, decodeTail_bits (by simp) (by simp; omega)]
  rfl

theorem reads_four (hn : 0xFFFF < n) (hvalid : n.isValidChar) :
    decodeChar index (.ofNat (n / 262144 % 8 + 240)) (.ofNat (n / 4096 % 64 + 128) ::
      .ofNat (n / 64 % 64 + 128) :: .ofNat (n % 64 + 128) :: rest) = .ok (.ofNat n, rest) := by
  unfold Nat.isValidChar at hvalid
  have hb : (UInt8.ofNat (n / 262144 % 8 + 240)).toNat = n / 262144 % 8 + 240 :=
    toNat_byte (by omega)
  obtain ⟨low, hlow⟩ :=
    exists_bound (n / 262144 % 8 + 240 = 0xF0) (x := 0x90) (y := 0x80) (by decide) (by decide)
  obtain ⟨high, hhigh⟩ :=
    exists_bound (n / 262144 % 8 + 240 = 0xF4) (x := 0x8F) (y := 0xBF) (by decide) (by decide)
  have hlead : Leads (n / 262144 % 8 + 240) 3 low.toNat high.toNat :=
    .four (by omega) (by omega) hlow hhigh
  have hcode : (n / 262144 % 8 + 240) % Nat.pow 2 (6 - 3) = n / 64 / 64 / 64 := by
    change _ % 8 = _
    omega
  have hsecond : n / 4096 = n / 64 / 64 := (Nat.div_div_eq_div_mul n 64 64).symm
  rw [← hb] at hlead hcode
  apply decodeChar_of_leads hlead hcode
  have hbounds : low.toNat ≤ n / 64 / 64 % 64 + 128 ∧ n / 64 / 64 % 64 + 128 ≤ high.toNat := by
    rw [hlow, hhigh]
    split_ifs <;> omega
  rw [hsecond, decodeTail_bits hbounds.1 hbounds.2, decodeTail_bits (by simp) (by simp; omega),
    decodeTail_bits (by simp) (by simp; omega)]
  rfl

theorem reads_char (h : String.utf8EncodeChar c = b :: bytes) :
    decodeChar index b (bytes ++ rest) = .ok (c, rest) := by
  have hvalid : c.val.toNat.isValidChar := c.valid
  rw [← ofNat_toNat_char c] at h ⊢
  generalize c.val.toNat = n at h hvalid ⊢
  rcases Nat.lt_or_ge 0x7F n with hone | hone
  · rcases Nat.lt_or_ge 0x7FF n with htwo | htwo
    · rcases Nat.lt_or_ge 0xFFFF n with hthree | hthree
      · cases (utf8EncodeChar_four hthree hvalid).symm.trans h
        exact reads_four hthree hvalid
      · cases (utf8EncodeChar_three htwo hthree hvalid).symm.trans h
        exact reads_three htwo hthree hvalid
    · cases (utf8EncodeChar_two hone htwo).symm.trans h
      exact reads_two hone htwo
  · rw [String.utf8EncodeChar, toNat_char hvalid, if_pos hone] at h
    cases h
    have hb : (UInt8.ofNat n).toNat = n := toNat_byte (by omega)
    have hlt : UInt8.ofNat n < 0x80 := by
      rw [UInt8.lt_iff_toNat_lt, hb]
      exact Nat.lt_succ_of_le hone
    rw [decodeChar, if_pos hlt, hb]
    rfl

end Chars

section Texts

theorem reads_chars {limit : Nat} (cs : List Char) (hlimit : (encodeChars cs).length ≤ limit) :
    decodeChars limit index (encodeChars cs) = .ok cs := by
  induction cs generalizing limit index with
  | nil => cases limit <;> rfl
  | cons c cs ih =>
    have hcons : encodeChars (c :: cs) = String.utf8EncodeChar c ++ encodeChars cs := rfl
    rw [hcons] at hlimit ⊢
    cases hc : String.utf8EncodeChar c with
    | nil => exact absurd hc String.utf8EncodeChar_ne_nil
    | cons b bytes =>
      rw [hc, List.cons_append, List.length_cons, List.length_append] at hlimit
      cases limit with
      | zero => omega
      | succ limit =>
        rw [List.cons_append, decodeChars, reads_char hc]
        change (decodeChars limit _ (encodeChars cs) >>= fun cs => pure (c :: cs)) = _
        rw [ih (by omega)]
        rfl

theorem exact_chars {limit : Nat} {cs : List Char} (h : decodeChars limit index bytes = .ok cs) :
    bytes = encodeChars cs := by
  induction limit generalizing index bytes cs with
  | zero =>
    cases bytes <;> cases h
    rfl
  | succ limit ih =>
    cases bytes with
    | nil =>
      cases h
      rfl
    | cons b bytes =>
      simp only [decodeChars, bind_eq_ok, Prod.exists, pure_eq_ok] at h
      obtain ⟨c, rest, hc, cs, hcs, rfl⟩ := h
      rw [exact_char hc, ih hcs]
      rfl

theorem codes_text : Codes (fun _ => True) encodeText decodeText := by
  refine codes_length.bind (fun s : String => (encodeChars s.toList).length)
    (fun length _ => ⟨?_, ?_⟩) ?_
  · rintro s rest ⟨_, rfl⟩ _
    have hget : (get : Decoder (List UInt8)) (encodeChars s.toList ++ rest) = .ok (_, _) := rfl
    have hlength : ¬ (encodeChars s.toList ++ rest).length < (encodeChars s.toList).length := by
      rw [List.length_append]
      omega
    rw [Decoder.bind_eq_of_ok hget, if_neg hlength, List.take_left, List.drop_left,
      reads_chars _ (Nat.le_refl _)]
    change Except.ok (String.ofList s.toList, rest) = _
    rw [String.ofList_toList]
  · intro bytes s rest h
    have hget : (get : Decoder (List UInt8)) bytes = .ok (_, _) := rfl
    rw [Decoder.bind_eq_of_ok hget] at h
    split at h
    · cases h
    · rename_i hlength
      cases hcs : decodeChars length 0 (bytes.take length) with
      | error fault =>
        rw [hcs] at h
        cases h
      | ok cs =>
        rw [hcs] at h
        cases h
        have htake := exact_chars hcs
        rw [String.toList_ofList, ← htake, List.take_append_drop]
        refine ⟨⟨trivial, ?_⟩, rfl⟩
        rw [List.length_take]
        omega
  · intro s _ hsize
    rw [List.length_append] at hsize
    omega

theorem encodeText_ne_nil (s : String) : encodeText s ≠ [] :=
  List.cons_ne_nil _ _

end Texts

end NestedViews.Snapshot
