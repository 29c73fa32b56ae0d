import NestedViews.Proofs.Success
import NestedViews.Snapshot.Bytes

/-! Encodings that can be read back. What was written is read as it was, whatever bytes come behind
it, and what is read could have been written in no other way. -/

namespace NestedViews.Snapshot

variable {α β : Type} {P : α → Prop} {Q : β → Prop} {bytes rest : List UInt8} {a : α} {b : β}

namespace Decoder

variable {x : Decoder α} {f : α → Decoder β}

theorem bind_eq_of_ok {more : List UInt8} (h : x bytes = .ok (a, more)) :
    (x >>= f) bytes = f a more := by
  change (x bytes >>= fun answer => f answer.1 answer.2) = _
  rw [h]
  rfl

theorem bind_eq_ok_iff : (x >>= f) bytes = .ok (b, rest) ↔
    ∃ a more, x bytes = .ok (a, more) ∧ f a more = .ok (b, rest) := by
  change (x bytes >>= fun answer => f answer.1 answer.2) = _ ↔ _
  rw [bind_eq_ok, Prod.exists]

theorem pure_eq_ok_iff {a' : α} :
    (pure a : Decoder α) bytes = .ok (a', rest) ↔ a = a' ∧ bytes = rest := by
  change Except.ok (a, bytes) = .ok (a', rest) ↔ _
  rw [Except.ok.injEq, Prod.mk.injEq]

end Decoder

open Decoder

/-- The values of a kind are read back from their bytes, and from no other bytes. The bytes must not
be more than a length can tell. -/
structure Codes (P : α → Prop) (encode : α → List UInt8) (decode : Decoder α) : Prop where
  reads : ∀ a rest, P a → (encode a).length < 2 ^ 64 → decode (encode a ++ rest) = .ok (a, rest)
  exact : ∀ bytes a rest, decode bytes = .ok (a, rest) → P a ∧ bytes = encode a ++ rest

namespace Codes

variable {encode : α → List UInt8} {others : β → List UInt8} {decode : Decoder α}
variable {f : α → Decoder β}

theorem congr {encode' : α → List UInt8} (h : Codes P encode decode)
    (heq : ∀ a, P a → encode a = encode' a) : Codes P encode' decode where
  reads a rest ha hsize := by
    rw [← heq a ha] at hsize ⊢
    exact h.reads a rest ha hsize
  exact bytes a rest hread := by
    obtain ⟨ha, rfl⟩ := h.exact bytes a rest hread
    exact ⟨ha, by rw [heq a ha]⟩

theorem of_iff {P' : α → Prop} (h : Codes P encode decode) (hiff : ∀ a, P a ↔ P' a) :
    Codes P' encode decode := by
  rwa [← funext fun a => propext (hiff a)]

theorem pure (h : ∀ a', P a' ↔ a' = a) : Codes P (fun _ => []) (pure a) where
  reads a' rest ha' _ := by
    rw [(h a').mp ha']
    rfl
  exact bytes a' rest hread := by
    obtain ⟨rfl, rfl⟩ := pure_eq_ok_iff.mp hread
    exact ⟨(h a).mpr rfl, rfl⟩

theorem bind (h : Codes P encode decode) (first : β → α)
    (hf : ∀ a, P a → Codes (fun b => Q b ∧ first b = a) others (f a))
    (hfirst : ∀ b, Q b → (encode (first b) ++ others b).length < 2 ^ 64 → P (first b)) :
    Codes Q (fun b => encode (first b) ++ others b) (decode >>= f) where
  reads b rest hb hsize := by
    have hfirst' := hfirst b hb hsize
    rw [List.length_append] at hsize
    rw [List.append_assoc, bind_eq_of_ok (h.reads (first b) (others b ++ rest) hfirst' (by omega))]
    exact (hf (first b) hfirst').reads b rest ⟨hb, rfl⟩ (by omega)
  exact bytes b rest hread := by
    obtain ⟨a, more, hdecode, hmore⟩ := bind_eq_ok_iff.mp hread
    obtain ⟨ha, rfl⟩ := h.exact bytes a more hdecode
    obtain ⟨⟨hb, rfl⟩, rfl⟩ := (hf a ha).exact more b rest hmore
    exact ⟨hb, (List.append_assoc _ _ _).symm⟩

theorem last {make : α → β} (h : Codes P encode decode) (first : β → α)
    (hmake : ∀ a b, P a → (Q b ∧ first b = a ↔ b = make a)) (hfirst : ∀ b, Q b → P (first b)) :
    Codes Q (fun b => encode (first b)) (decode >>= fun a => Pure.pure (make a)) := by
  have hwhole : ∀ a, P a → Codes (fun b => Q b ∧ first b = a) (fun _ => []) (Pure.pure (make a)) :=
    fun a ha => .pure fun b => hmake a b ha
  exact (h.bind first hwhole fun b hb _ => hfirst b hb).congr fun _ _ => List.append_nil _

theorem map {make : α → β} (h : Codes P encode decode) (hmake : ∀ b, Q b ↔ ∃ a, P a ∧ make a = b)
    (heq : ∀ a, P a → others (make a) = encode a) :
    Codes Q others (decode >>= fun a => Pure.pure (make a)) where
  reads b rest hb hsize := by
    obtain ⟨a, ha, rfl⟩ := (hmake b).mp hb
    rw [heq a ha] at hsize ⊢
    rw [bind_eq_of_ok (h.reads a rest ha hsize)]
    rfl
  exact bytes b rest hread := by
    obtain ⟨a, more, hdecode, hmore⟩ := bind_eq_ok_iff.mp hread
    obtain ⟨rfl, rfl⟩ := pure_eq_ok_iff.mp hmore
    obtain ⟨ha, rfl⟩ := h.exact bytes a more hdecode
    exact ⟨(hmake _).mpr ⟨a, ha, rfl⟩, by rw [heq a ha]⟩

end Codes

section Numbers

theorem codes_byte : Codes (· < 256) (fun n => [UInt8.ofNat n]) byte where
  reads n rest hn _ := by
    have hbyte : (UInt8.ofNat n).toNat = n := UInt8.toNat_ofNat_of_lt hn
    change Except.ok ((UInt8.ofNat n).toNat, rest) = _
    rw [hbyte]
  exact bytes n rest hread := by
    cases bytes with
    | nil => cases hread
    | cons b bytes =>
      cases hread
      exact ⟨b.toNat_lt, by rw [UInt8.ofNat_toNat]; rfl⟩

theorem codes_nat (width : Nat) :
    Codes (· < 256 ^ width) (littleEndian width) (decodeNat width) := by
  induction width with
  | zero =>
    refine .pure fun n => ?_
    rw [pow_zero, Nat.lt_one_iff]
  | succ width ih =>
    have hhigh : ∀ low, low < 256 → Codes (fun n => n < 256 ^ (width + 1) ∧ n % 256 = low)
        (fun n => littleEndian width (n / 256))
        (decodeNat width >>= fun high => pure (low + 256 * high)) := by
      intro low hlow
      refine ih.last (· / 256) ?_ ?_
      · intro high n hhigh
        rw [pow_succ]
        omega
      · intro n hn
        rw [pow_succ] at hn
        omega
    exact codes_byte.bind (· % 256) hhigh fun n _ _ => Nat.mod_lt n (by decide)

theorem codes_length : Codes (· < 2 ^ 64) encodeLength decodeLength :=
  codes_nat 8

end Numbers

section Lists

variable {encode : α → List UInt8} {decode : Decoder α}

theorem length_le_flatMap (hne : ∀ a, encode a ≠ []) (items : List α) :
    items.length ≤ (items.flatMap encode).length := by
  induction items with
  | nil => exact Nat.le_refl 0
  | cons a items ih =>
    have hpos := List.length_pos_iff.mpr (hne a)
    rw [List.flatMap_cons, List.length_append, List.length_cons]
    omega

theorem reads_many (h : Codes P encode decode) {items : List α} (hitems : ∀ a ∈ items, P a)
    (hsize : (items.flatMap encode).length < 2 ^ 64) :
    decodeMany decode items.length (items.flatMap encode ++ rest) = .ok (items, rest) := by
  induction items with
  | nil => rfl
  | cons a items ih =>
    obtain ⟨ha, hitems⟩ := List.forall_mem_cons.mp hitems
    rw [List.flatMap_cons, List.length_append] at hsize
    rw [List.flatMap_cons, List.append_assoc, List.length_cons, decodeMany,
      bind_eq_of_ok (h.reads a _ ha (by omega)), bind_eq_of_ok (ih hitems (by omega))]
    rfl

theorem exact_many (h : Codes P encode decode) {count : Nat} {items : List α}
    (hread : decodeMany decode count bytes = .ok (items, rest)) :
    ((∀ a ∈ items, P a) ∧ items.length = count) ∧ bytes = items.flatMap encode ++ rest := by
  induction count generalizing items bytes with
  | zero =>
    obtain ⟨rfl, rfl⟩ := pure_eq_ok_iff.mp hread
    exact ⟨⟨fun _ h => (List.not_mem_nil h).elim, rfl⟩, rfl⟩
  | succ count ih =>
    obtain ⟨a, more, hfirst, hread⟩ := bind_eq_ok_iff.mp hread
    obtain ⟨others, more', hothers, hread⟩ := bind_eq_ok_iff.mp hread
    obtain ⟨rfl, rfl⟩ := pure_eq_ok_iff.mp hread
    obtain ⟨⟨hitems, rfl⟩, rfl⟩ := ih hothers
    obtain ⟨ha, rfl⟩ := h.exact _ _ _ hfirst
    exact ⟨⟨List.forall_mem_cons.mpr ⟨ha, hitems⟩, rfl⟩,
      by rw [List.flatMap_cons, List.append_assoc]⟩

theorem codes_list (h : Codes P encode decode) (hne : ∀ a, encode a ≠ []) :
    Codes (fun items => ∀ a ∈ items, P a) (encodeList encode) (decodeList decode) := by
  have hmany : ∀ count, count < 2 ^ 64 → Codes
      (fun items => (∀ a ∈ items, P a) ∧ items.length = count) (List.flatMap encode)
      (decodeMany decode count) := by
    intro count _
    constructor
    · rintro items rest ⟨hitems, rfl⟩ hsize
      exact reads_many h hitems hsize
    · exact fun bytes items rest hread => exact_many h hread
  refine codes_length.bind List.length hmany ?_
  -- Every item takes a byte, so there are not more of them than a length can tell.
  intro items _ hsize
  have hle := length_le_flatMap hne items
  rw [List.length_append] at hsize
  omega

theorem codes_option (h : Codes P encode decode) :
    Codes (fun a? => ∀ a ∈ a?, P a) (encodeOption encode) (decodeOption decode) where
  reads a? rest ha hsize := by
    cases a? with
    | none => rfl
    | some a =>
      change (decode >>= fun a => pure (some a)) (encode a ++ rest) = _
      rw [encodeOption, List.length_cons] at hsize
      rw [bind_eq_of_ok (h.reads a rest (ha a rfl) (by omega))]
      rfl
  exact bytes a? rest hread := by
    obtain ⟨tag, more, htag, hread'⟩ := bind_eq_ok_iff.mp hread
    obtain ⟨_, rfl⟩ := codes_byte.exact _ _ _ htag
    split at hread'
    · obtain ⟨rfl, rfl⟩ := pure_eq_ok_iff.mp hread'
      exact ⟨nofun, rfl⟩
    · obtain ⟨a, more', hfirst, hread'⟩ := bind_eq_ok_iff.mp hread'
      obtain ⟨rfl, rfl⟩ := pure_eq_ok_iff.mp hread'
      obtain ⟨ha, rfl⟩ := h.exact _ _ _ hfirst
      exact ⟨fun _ hmem => Option.mem_some.mp hmem ▸ ha, rfl⟩
    · cases hread'

end Lists

end NestedViews.Snapshot
