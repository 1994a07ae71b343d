import Ferry.Lib.Cursor
import Ferry.Store.Manifest

/-! # The fields of the formats

Each step of the bounded reader reads one field. All parsers of the store are
made of these steps, so what they accept follows from the formats given here.
-/

namespace Ferry

open Lib List

theorem leBytes_leNat (b : Bytes) : leBytes b.length (leNat b) = b := by
  induction b with
  | nil => rfl
  | cons x rest ih =>
    have hx := x.toNat_lt
    have hlow : (x.toNat + 256 * leNat rest) % 256 = x.toNat := by omega
    have hhigh : (x.toNat + 256 * leNat rest) / 256 = leNat rest := by omega
    rw [length_cons, leNat, leBytes, hlow, hhigh, ih, UInt8.ofNat_toNat]

theorem i64Word_wordI64 {w : Nat} (h : w < 2 ^ 64) : i64Word (wordI64 w) = w := by
  unfold i64Word wordI64
  split <;> omega

theorem wordI64_range {w : Nat} (h : w < 2 ^ 64) : I64Range (wordI64 w) := by
  unfold I64Range wordI64
  split <;> omega

instance : Cursor Reader UInt8 where
  rest r := r.buf.drop r.pos
  skip n r := { r with pos := r.pos + n }
  InBounds r := r.pos ≤ r.buf.length
  skip_zero _ := rfl
  skip_skip m n r := by simp only [Nat.add_assoc]
  rest_skip n r := by rw [drop_drop]
  inBounds_skip n r h hn := by
    rw [length_drop] at hn
    dsimp only
    omega

variable {α ε : Type}

namespace Reader

theorem rest_new (b : Bytes) : Cursor.rest (Reader.new b) = b := rfl

theorem inBounds_new (b : Bytes) : Cursor.InBounds (Reader.new b) := Nat.zero_le _

theorem take_decodes (n : Nat) : Decodes (take n) fun b w => b.length = n ∧ w = b := by
  intro r hr b r'
  replace hr : r.pos ≤ r.buf.length := hr
  constructor
  · intro h
    unfold take at h
    split at h
    · cases h
    cases h
    have hlen : ((r.buf.drop r.pos).take n).length = n := by
      rw [length_take, length_drop]
      omega
    exact ⟨_, ⟨hlen, rfl⟩, take_prefix n _, by rw [hlen]; rfl⟩
  · rintro ⟨w, ⟨rfl, rfl⟩, hpre, rfl⟩
    replace hpre : w <+: r.buf.drop r.pos := hpre
    have hle := hpre.length_le
    rw [length_drop] at hle
    unfold take
    rw [if_neg (by omega), ← prefix_iff_eq_take.1 hpre]
    rfl

theorem array_decodes (n : Nat) : Decodes (array n) fun b w => w = b.val := by
  intro r hr b r'
  have htake := take_decodes n r hr b.val r'
  unfold take at htake
  unfold array
  split at htake
  · rename_i hshort
    rw [dif_pos hshort]
    simpa [b.property] using htake
  · rename_i hlong
    rw [dif_neg hlong]
    simpa [b.property, Subtype.ext_iff] using htake

theorem field_decodes {n : Nat} {f : Bytes → α} {F : α → Prop} (enc : α → Bytes)
    (hread : ∀ b : Bytes, b.length = n → F (f b) ∧ enc (f b) = b)
    (hwrite : ∀ a, F a → (enc a).length = n ∧ f (enc a) = a) :
    Decodes (do return f (← take n)) fun a w => F a ∧ w = enc a := by
  refine ((take_decodes n).bind fun b => .pure (f b)).congr fun a u => ?_
  constructor
  · rintro ⟨b, w, v, ⟨hlen, rfl⟩, ⟨rfl, rfl⟩, rfl⟩
    obtain ⟨hF, henc⟩ := hread w hlen
    exact ⟨hF, by rw [henc, append_nil]⟩
  · rintro ⟨hF, rfl⟩
    obtain ⟨hlen, hf⟩ := hwrite a hF
    exact ⟨enc a, enc a, [], ⟨hlen, rfl⟩, ⟨hf.symm, rfl⟩, (append_nil _).symm⟩

theorem u8_decodes : Decodes u8 fun v w => w = [v] := by
  refine (field_decodes (n := 1) (F := fun _ => True) (fun v => [v]) ?_ ?_).congr ?_
  · intro b hb
    obtain ⟨x, rfl⟩ := length_eq_one_iff.1 hb
    exact ⟨trivial, rfl⟩
  · intro v _
    exact ⟨rfl, rfl⟩
  · intro v w
    simp

theorem word_decodes (n : Nat) :
    Decodes (do return leNat (← take n)) fun v w => v < 256 ^ n ∧ w = leBytes n v := by
  refine field_decodes _ ?_ ?_
  · rintro b rfl
    exact ⟨leNat_lt b, leBytes_leNat b⟩
  · intro v hv
    exact ⟨leBytes_length n v, leNat_leBytes n v hv⟩

theorem wordOf_decodes (n : Nat) {ofNat : Nat → α} {toNat : α → Nat}
    (hlt : ∀ v, toNat v < 256 ^ n) (hto : ∀ m < 256 ^ n, toNat (ofNat m) = m) (hof : ∀ v, ofNat (toNat v) = v) :
    Decodes (do return ofNat (leNat (← take n))) fun v w => w = leBytes n (toNat v) := by
  refine (field_decodes (F := fun _ => True) (fun v => leBytes n (toNat v)) ?_ ?_).congr (by simp)
  · rintro b rfl
    exact ⟨trivial, by rw [hto _ (leNat_lt b), leBytes_leNat]⟩
  · intro v _
    exact ⟨leBytes_length n _, by rw [leNat_leBytes n _ (hlt v), hof]⟩

theorem u32_decodes : Decodes u32 fun v w => v < 2 ^ 32 ∧ w = leBytes 4 v := word_decodes 4

theorem u64_decodes : Decodes u64 fun v w => v < 2 ^ 64 ∧ w = leBytes 8 v := word_decodes 8

theorem i64_decodes : Decodes i64 fun v w => I64Range v ∧ w = leBytes 8 (i64Word v) := by
  refine field_decodes _ ?_ ?_
  · intro b hb
    have hlt := leNat_lt b
    rw [hb] at hlt
    refine ⟨wordI64_range (by omega), ?_⟩
    have := leBytes_leNat b
    rwa [i64Word_wordI64 (by omega), ← hb]
  · intro v hv
    refine ⟨leBytes_length 8 _, ?_⟩
    rw [leNat_leBytes 8 _ (i64Word_lt v), wordI64_i64Word v hv]

theorem expectEnd_ok_iff {r : Reader} (hr : Cursor.InBounds r) (x : Unit × Reader) :
    expectEnd r = .ok x ↔ Cursor.rest r = [] ∧ x = ((), r) := by
  change r.pos ≤ r.buf.length at hr
  change _ ↔ r.buf.drop r.pos = [] ∧ _
  unfold expectEnd
  rw [drop_eq_nil_iff]
  split
  · constructor
    · intro h
      cases h
    · rintro ⟨hle, -⟩
      omega
  · constructor
    · intro h
      cases h
      exact ⟨by omega, rfl⟩
    · rintro ⟨-, rfl⟩
      rfl

end Reader

theorem Read.mapError_ok_iff {ε' : Type} (f : ε → ε') (m : Read ε α) (r : Reader)
    (x : α × Reader) : m.mapError f r = .ok x ↔ m r = .ok x := by
  unfold Read.mapError
  cases m r with
  | ok | error => simp

theorem Lib.Decodes.mapError {ε' : Type} {m : Read ε α} {W : α → Bytes → Prop} (h : Decodes m W)
    (f : ε → ε') : Decodes (m.mapError f) W :=
  h.of_ok_iff fun r x => m.mapError_ok_iff f r x

section
variable {ε' β : Type} {f : ε → ε'} {m : Read ε α} {k : α → Read ε' β} {W : α → Bytes → Prop}
  {V : α → β → Bytes → Prop} (h : Decodes m W)
include h

theorem Lib.Decodes.field (hk : ∀ a, Decodes (k a) (V a)) :
    Decodes (m.mapError f >>= k) fun b u => ∃ a w v, W a w ∧ V a b v ∧ u = w ++ v := (h.mapError f).bind hk

theorem Lib.DecodesAll.field (hk : ∀ a, DecodesAll (k a) (V a)) :
    DecodesAll (m.mapError f >>= k) fun b u => ∃ a w v, W a w ∧ V a b v ∧ u = w ++ v := .bind (h.mapError f) hk

end

theorem Reader.ends_decodes (f : FormatError → ε) (a : α) :
    DecodesAll (do Reader.expectEnd.mapError f; return a) fun b w => b = a ∧ w = [] := by
  apply DecodesAll.ends
  intro r hr x
  rw [Read.mapError_ok_iff]
  exact Reader.expectEnd_ok_iff hr x

theorem Lib.DecodesAll.run_new {p : Read ε α} {W : α → Bytes → Prop}
    (h : DecodesAll p W) {b : Bytes} {a : α} :
    (do let (x, _) ← p.run (Reader.new b); return x : Except ε α) = .ok a ↔ W a b := by
  have hread := h (Reader.new b) (Reader.inBounds_new b) a
  rw [Reader.rest_new] at hread
  rw [bind_eq_ok, ← hread]
  constructor
  · rintro ⟨⟨x, r⟩, hrun, hx⟩
    cases hx
    exact ⟨r, hrun⟩
  · rintro ⟨r, hrun⟩
    exact ⟨(a, r), hrun, rfl⟩

/-- A decoder repeated `n` times. -/
theorem readN_decodes {step : Read ε α} {F : α → Prop} {enc : α → Bytes}
    (h : Decodes step fun a w => F a ∧ w = enc a) (n : Nat) :
    Decodes (readN step n) fun as w => as.length = n ∧ (∀ a ∈ as, F a) ∧ w = as.flatMap enc := by
  induction n with
  | zero =>
    refine (Decodes.pure []).congr fun as w => ?_
    constructor
    · rintro ⟨rfl, rfl⟩
      exact ⟨rfl, by simp, rfl⟩
    · rintro ⟨hlen, -, rfl⟩
      rw [length_eq_zero_iff] at hlen
      subst hlen
      exact ⟨rfl, rfl⟩
  | succ n ih =>
    refine (h.bind fun a => ih.bind fun as => .pure (a :: as)).congr fun as u => ?_
    constructor
    · rintro ⟨a, w, v, ⟨ha, rfl⟩, ⟨rest, w', v', ⟨hlen, hall, rfl⟩, ⟨rfl, rfl⟩, rfl⟩, rfl⟩
      exact ⟨by rw [length_cons, hlen], forall_mem_cons.2 ⟨ha, hall⟩, by simp⟩
    · rintro ⟨hlen, hall, rfl⟩
      cases as with
      | nil => cases hlen
      | cons a rest =>
        obtain ⟨ha, hrest⟩ := forall_mem_cons.1 hall
        exact ⟨a, enc a, rest.flatMap enc, ⟨ha, rfl⟩,
          ⟨rest, rest.flatMap enc, [], ⟨Nat.succ.inj hlen, hrest, rfl⟩, ⟨rfl, rfl⟩, by simp⟩, by simp⟩

/-! ## Text -/

theorem fromUtf8_eq_some {b : Bytes} {s : String} :
    fromUtf8 b = some s ↔ b = s.toUTF8.data.toList := by
  unfold fromUtf8 String.fromUTF8?
  constructor
  · intro h
    split at h
    · cases h
      rfl
    · cases h
  · rintro rfl
    rw [dif_pos (show (ByteArray.mk s.toUTF8.data.toList.toArray).IsValidUTF8 from s.isValidUTF8)]
    rfl

end Ferry
