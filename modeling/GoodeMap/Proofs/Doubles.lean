import GoodeMap.Proofs.DoubleRounding
import GoodeMap.Proofs.LobePartition

/-! Doubles as numbers, infinities and the one that is no number. Storing keeps what can be stored; the
order places every double but one. -/
namespace GoodeMap

def Double (_ : Binary64.Circular) : Type := Float

instance (c : Binary64.Circular) : Scalar (Double c) := c.scalar

namespace Binary64
open Float.Model (Format UnpackedFloat totalExponent)
open Float.Model.UnpackedFloat (Sign Accuracy ExtendedMantissa)

def stored (u : UnpackedFloat) : UnpackedFloat := (Float.Model.pack u).unpack

theorem stored_zero (s : Sign) : stored (.zero s) = .zero s := by
  cases s <;> rfl

theorem stored_infinity (s : Sign) : stored (.infinity s) = .infinity s := by
  cases s <;> rfl

theorem stored_notANumber : stored .notANumber = .notANumber := rfl

theorem unpack_components {s : Sign} {b : BitVec 11} {d : BitVec 52} (hb : b.toNat < 2047) :
    UnpackedFloat.unpack Format.binary64 (UnpackedFloat.packComponents Format.binary64 s b d) ≠ .notANumber ∧
      ∀ {k : Int}, -1074 ≤ k → b.toNat ≤ k + 1075 →
        Below k (UnpackedFloat.unpack Format.binary64 (UnpackedFloat.packComponents Format.binary64 s b d)) := by
  have hfull : b ≠ -1#11 := by
    intro h
    rw [h] at hb
    exact absurd hb (by decide)
  have hd := d.isLt
  simp only [UnpackedFloat.unpack, UnpackedFloat.unpackExponent_packComponents,
    UnpackedFloat.unpackMantissa_packComponents, if_neg hfull]
  split_ifs with hlow hzero
  · exact ⟨nofun, fun _ _ => trivial⟩
  · refine ⟨nofun, fun hk _ => ⟨?_, ?_⟩⟩
    · omega
    · rw [hlow]
      change (0 : Int) - (1023 + 52) + 1 ≤ _
      omega
  · refine ⟨nofun, fun hk hbk => ⟨(1#1 ++ d).isLt, ?_⟩⟩
    change (b.toNat : Int) - (1023 + 52) ≤ _
    omega

theorem stored_finite (s : Sign) {m : Nat} {e : Int} (hm : 0 < m) :
    stored (.finite s m e hm) ≠ .notANumber ∧
      ∀ {k : Int}, -1074 ≤ k → k ≤ 971 → e ≤ k → Below k (stored (.finite s m e hm)) := by
  change UnpackedFloat.unpack _ (UnpackedFloat.pack _ _) ≠ _ ∧
    ∀ {k : Int}, -1074 ≤ k → k ≤ 971 → e ≤ k → Below k (UnpackedFloat.unpack _ (UnpackedFloat.pack _ _))
  simp only [UnpackedFloat.pack]
  have hbias : (e + Format.binary64.exponentBias + Format.binary64.mantissaBitsWithoutImplicit).toNat =
      (e + 1075).toNat := by
    change (e + 1023 + 52).toNat = _
    omega
  rw [hbias]
  split_ifs with hover hnormal
  · refine ⟨?_, fun _ hk he => ?_⟩
    · cases s <;> exact nofun
    · change 2048 ≤ (e + 1075).toNat + 1 at hover
      omega
  · change ¬ 2048 ≤ (e + 1075).toNat + 1 at hover
    have hb : (BitVec.ofNat 11 (e + 1075).toNat).toNat = (e + 1075).toNat :=
      Nat.mod_eq_of_lt (show _ < 2048 by omega)
    have h := unpack_components (s := s) (d := BitVec.ofNat 52 m) (hb.trans_lt (by omega))
    exact ⟨h.1, fun hk _ he => h.2 hk (by rw [hb]; omega)⟩
  · have h := unpack_components (s := s) (b := 0#11) (d := BitVec.ofNat 52 m) (by decide)
    exact ⟨h.1, fun hk _ _ => h.2 hk (by change (0 : Int) ≤ _; omega)⟩

theorem stored_eq_notANumber_iff {u : UnpackedFloat} : stored u = .notANumber ↔ u = .notANumber := by
  cases u with
  | notANumber => exact iff_of_true rfl rfl
  | infinity s => exact iff_of_false (by rw [stored_infinity]; nofun) nofun
  | zero s => exact iff_of_false (by rw [stored_zero]; nofun) nofun
  | finite s m e hm => exact iff_of_false (stored_finite s hm).1 nofun

theorem Below.stored {k : Int} {u : UnpackedFloat} (h : Below k u) (hlow : -1074 ≤ k) (hhigh : k ≤ 971) :
    Below k (stored u) := by
  cases u with
  | notANumber => exact h.elim
  | infinity s => exact h.elim
  | zero s =>
    rw [stored_zero]
    trivial
  | finite s m e hm => exact (stored_finite s hm).2 hlow hhigh h.2

def Representable (u : UnpackedFloat) : Prop := ∃ b, UnpackedFloat.unpack Format.binary64 b = u

theorem Representable.stored {u : UnpackedFloat} (h : Representable u) : stored u = u := by
  obtain ⟨b, rfl⟩ := h
  change UnpackedFloat.unpack _ (UnpackedFloat.pack _ _) = _
  rw [UnpackedFloat.pack_unpack b]
  split_ifs with hnan
  · rw [UnpackedFloat.unpack_packedNaN]
    simp only [UnpackedFloat.isNaNBits, decide_eq_true_eq] at hnan
    simp only [UnpackedFloat.unpack, if_pos hnan.1, if_neg hnan.2]
  · rfl

/-- The sign of a double is free. -/
theorem Representable.withSign {u : UnpackedFloat} (h : Representable u) :
    Representable u.abs ∧ Representable u.neg := by
  obtain ⟨b, rfl⟩ := h
  rw [← UnpackedFloat.packComponents_unpackSign_unpackExponent_unpackMantissa b]
  generalize Sign.ofBitVec (UnpackedFloat.unpackSign b) = s
  have hread (t : Sign) := @UnpackedFloat.unpackSign_packComponents Format.binary64 t
    (UnpackedFloat.unpackExponent b) (UnpackedFloat.unpackMantissa b)
  refine ⟨⟨UnpackedFloat.packComponents _ .positive (UnpackedFloat.unpackExponent b)
      (UnpackedFloat.unpackMantissa b), ?_⟩,
    ⟨UnpackedFloat.packComponents _ (-s) (UnpackedFloat.unpackExponent b)
      (UnpackedFloat.unpackMantissa b), ?_⟩⟩ <;>
  · simp only [UnpackedFloat.unpack, UnpackedFloat.unpackExponent_packComponents,
      UnpackedFloat.unpackMantissa_packComponents, hread, Sign.ofBitVec_toBitVec]
    split_ifs <;> rfl

def rank : UnpackedFloat → Option (Int ×ₗ Int ×ₗ Int)
  | .notANumber => none
  | .infinity .negative => some (toLex (-2, toLex (0, 0)))
  | .finite .negative m e _ => some (toLex (-1, toLex (-e, -m)))
  | .zero _ => some (toLex (0, toLex (0, 0)))
  | .finite .positive m e _ => some (toLex (1, toLex (e, m)))
  | .infinity .positive => some (toLex (2, toLex (0, 0)))

theorem compare_then (e f : Int) (m n : Nat) (o : Ordering) :
    (compare e f).then (compare m n) = o ↔ match o with
      | .lt => e < f ∨ e = f ∧ m < n
      | .eq => e = f ∧ m = n
      | .gt => f < e ∨ e = f ∧ n < m := by
  rcases lt_trichotomy e f with h | rfl | h
  · rw [Int.compare_eq_lt.mpr h]
    cases o <;> simp [h, h.ne, h.not_gt]
  · rw [Int.compare_eq_eq.mpr rfl]
    cases o <;> simp [Nat.compare_eq_lt, Nat.compare_eq_gt]
  · rw [Int.compare_eq_gt.mpr h]
    cases o <;> simp [h, h.ne', h.not_gt]

theorem le_iff_rank {u v : UnpackedFloat} :
    UnpackedFloat.le u v = true ↔ ∃ a b, rank u = some a ∧ rank v = some b ∧ a ≤ b := by
  rcases u with (_ | _) | _ | _ | ⟨_ | _, m, e, hm⟩ <;> rcases v with (_ | _) | _ | _ | ⟨_ | _, n, f, hn⟩ <;>
    simp [UnpackedFloat.le, UnpackedFloat.compare, rank, Prod.Lex.le_iff, Ordering.isLE_iff_ne_gt,
      Ordering.isGE_iff_ne_lt, compare_then]
  all_goals first | decide | omega

theorem lt_iff_rank {u v : UnpackedFloat} :
    UnpackedFloat.lt u v = true ↔ ∃ a b, rank u = some a ∧ rank v = some b ∧ a < b := by
  rcases u with (_ | _) | _ | _ | ⟨_ | _, m, e, hm⟩ <;> rcases v with (_ | _) | _ | _ | ⟨_ | _, n, f, hn⟩ <;>
    simp [UnpackedFloat.lt, UnpackedFloat.compare, rank, Prod.Lex.lt_iff, compare_then]
  all_goals decide

theorem rank_eq_none_iff {u : UnpackedFloat} : rank u = none ↔ u = .notANumber := by
  rcases u with (_ | _) | _ | _ | ⟨_ | _, m, e, hm⟩ <;> simp [rank]

theorem below_unpack (b : BitVec 64) : UnpackedFloat.unpack Format.binary64 b = .notANumber ∨
    (∃ s, UnpackedFloat.unpack Format.binary64 b = .infinity s) ∨
      Below 971 (UnpackedFloat.unpack Format.binary64 b) := by
  have hparts := @UnpackedFloat.packComponents_unpackSign_unpackExponent_unpackMantissa Format.binary64 b
  by_cases hfull : @UnpackedFloat.unpackExponent Format.binary64 b = -1#11
  · simp only [UnpackedFloat.unpack, if_pos hfull]
    split_ifs
    · exact .inr (.inl ⟨_, rfl⟩)
    · exact .inl rfl
  · have hlt := (@UnpackedFloat.unpackExponent Format.binary64 b).isLt
    have hb : (@UnpackedFloat.unpackExponent Format.binary64 b).toNat < 2047 :=
      lt_of_le_of_ne (Nat.le_of_lt_succ hlt) fun h => hfull (BitVec.eq_of_toNat_eq h)
    rw [← hparts]
    exact .inr (.inr ((unpack_components hb).2 (by omega) (by omega)))

/-- A positive number is no further out than one above it. -/
theorem Below.of_ge {u v : UnpackedFloat} {k : Int} (hv : Below k v) (h : UnpackedFloat.le u v = true) :
    (∀ m e hm, u = .finite .positive m e hm → e ≤ k) ∧ u ≠ .infinity .positive := by
  constructor
  · rintro m e hm rfl
    rcases v with _ | _ | _ | ⟨_ | _, n, f, hn⟩
    all_goals
      simp [UnpackedFloat.le, UnpackedFloat.compare, Ordering.isLE_iff_ne_gt, compare_then, Below] at h hv
    omega
  · rintro rfl
    rcases v with _ | _ | _ | ⟨_ | _, n, f, hn⟩
    all_goals simp [UnpackedFloat.le, UnpackedFloat.compare, Below] at h hv

/-- A negative number is no further out than one below it. -/
theorem Below.of_le {u v : UnpackedFloat} {k : Int} (hu : Below k u) (h : UnpackedFloat.le u v = true) :
    (∀ m e hm, v = .finite .negative m e hm → e ≤ k) ∧ v ≠ .infinity .negative := by
  constructor
  · rintro m e hm rfl
    rcases u with _ | _ | _ | ⟨_ | _, n, f, hn⟩
    all_goals
      simp [UnpackedFloat.le, UnpackedFloat.compare, Ordering.isGE_iff_ne_lt, compare_then, Below] at h hu
    omega
  · rintro rfl
    rcases u with _ | _ | _ | ⟨_ | _, n, f, hn⟩
    all_goals simp [UnpackedFloat.le, UnpackedFloat.compare, Below] at h hu

end Binary64

namespace Double
open Binary64
open Float.Model (UnpackedFloat)
variable {c : Circular}

def view (x : Double c) : UnpackedFloat := (Float.toModel x).unpack

theorem le_iff_view {x y : Double c} : x ≤ y ↔ UnpackedFloat.le (view x) (view y) = true :=
  decide_eq_true_iff

theorem lt_iff_view {x y : Double c} : x < y ↔ UnpackedFloat.lt (view x) (view y) = true :=
  decide_eq_true_iff

theorem le_iff {x y : Double c} :
    x ≤ y ↔ ∃ a b, rank (view x) = some a ∧ rank (view y) = some b ∧ a ≤ b :=
  le_iff_view.trans le_iff_rank

theorem lt_iff {x y : Double c} :
    x < y ↔ ∃ a b, rank (view x) = some a ∧ rank (view y) = some b ∧ a < b :=
  lt_iff_view.trans lt_iff_rank

theorem placed_iff {x : Double c} : x ≤ x ↔ view x ≠ .notANumber := by
  rw [le_iff, ne_eq, ← rank_eq_none_iff]
  cases hx : rank (view x) with
  | none => simp
  | some a => simp

instance : LawfulOrder (Double c) where
  le_of_lt {x y} h := by
    obtain ⟨a, b, hx, hy, hab⟩ := lt_iff.mp h
    exact le_iff.mpr ⟨a, b, hx, hy, hab.le⟩
  le_trans {x y z} h h' := by
    obtain ⟨a, b, hx, hy, hab⟩ := le_iff.mp h
    obtain ⟨b', d, hy', hz, hbd⟩ := le_iff.mp h'
    cases hy.symm.trans hy'
    exact le_iff.mpr ⟨a, d, hx, hz, hab.trans hbd⟩
  lt_of_lt_of_le {x y z} h h' := by
    obtain ⟨a, b, hx, hy, hab⟩ := lt_iff.mp h
    obtain ⟨b', d, hy', hz, hbd⟩ := le_iff.mp h'
    cases hy.symm.trans hy'
    exact lt_iff.mpr ⟨a, d, hx, hz, hab.trans_le hbd⟩
  not_lt_of_le {x y} h h' := by
    obtain ⟨a, b, hx, hy, hab⟩ := le_iff.mp h
    obtain ⟨b', a', hy', hx', hba⟩ := lt_iff.mp h'
    cases hx.symm.trans hx'
    cases hy.symm.trans hy'
    exact hba.not_ge hab
  placed_left {x y} h := by
    obtain ⟨a, b, hx, hy, hab⟩ := le_iff.mp h
    exact le_iff.mpr ⟨a, a, hx, hx, le_rfl⟩
  placed_right {x y} h := by
    obtain ⟨a, b, hx, hy, hab⟩ := le_iff.mp h
    exact le_iff.mpr ⟨b, b, hy, hy, le_rfl⟩
  le_of_not_lt {x y} hx hy h := by
    obtain ⟨a, -, ha, -, -⟩ := le_iff.mp hx
    obtain ⟨b, -, hb, -, -⟩ := le_iff.mp hy
    refine le_iff.mpr ⟨b, a, hb, ha, not_lt.mp fun hab => h (lt_iff.mpr ⟨a, b, ha, hb, hab⟩)⟩

theorem below_view (x : Double c) :
    view x = .notANumber ∨ (∃ s, view x = .infinity s) ∨ Below 971 (view x) :=
  below_unpack _

theorem isFinite_iff {x : Double c} : Scalar.isFinite x = true ↔ Below 971 (view x) := by
  change (view x).isFinite = true ↔ _
  rcases below_view x with h | ⟨s, h⟩ | h
  · rw [h]
    exact iff_of_false nofun id
  · rw [h]
    exact iff_of_false nofun id
  · refine iff_of_true ?_ h
    cases hx : view x with
    | zero s => rfl
    | finite s m e hm => rfl
    | infinity s => rw [hx] at h; exact h.elim
    | notANumber => rw [hx] at h; exact h.elim

/-- Between two numbers there is nothing further out than both of them. -/
theorem below_of_between {x y z : Double c} {k : Int} (hx : Below k (view x)) (hz : Below k (view z))
    (hxy : x ≤ y) (hyz : y ≤ z) : Below k (view y) := by
  rw [le_iff_view] at hxy hyz
  obtain ⟨hpos, hpos'⟩ := hz.of_ge hyz
  obtain ⟨hneg, hneg'⟩ := hx.of_le hxy
  rcases below_view y with h | ⟨s, h⟩ | h
  · rw [h] at hyz
    cases hyz
  · cases s with
    | positive => exact absurd h hpos'
    | negative => exact absurd h hneg'
  · cases hy : view y with
    | zero s => trivial
    | infinity s => rw [hy] at h; exact h.elim
    | notANumber => rw [hy] at h; exact h.elim
    | finite s m e hm =>
      rw [hy] at h
      cases s with
      | positive => exact ⟨h.1, hpos m e hm hy⟩
      | negative => exact ⟨h.1, hneg m e hm hy⟩

end Double
end GoodeMap
