import Mathlib.Data.List.Basic
import Mathlib.Tactic.Ring

/-!
# Byte Codecs

Big-endian numbers, and decoders that consume a stream of bytes through a state of their own. A
decoder is specified by the bytes it consumes and the value it returns, whatever follows and
however the state buffers the stream.
-/

namespace Drakeydb.Lib

open List

/-! ## §1 Big-endian numbers -/

/-- The last `k` bytes of a number, most significant first. -/
def storeBigEndian : ℕ → ℕ → List UInt8
  | 0, _ => []
  | k + 1, v => storeBigEndian k (v / 256) ++ [UInt8.ofNat (v % 256)]

/-- The number whose bytes these are, most significant first. -/
def loadBigEndian (bytes : List UInt8) : ℕ :=
  bytes.foldl (fun acc b => acc * 256 + b.toNat) 0

@[simp] theorem length_storeBigEndian (k v : ℕ) : (storeBigEndian k v).length = k := by
  induction k generalizing v with
  | zero => rfl
  | succ k ih => simp [storeBigEndian, ih]

/-- Loading what was stored. -/
theorem loadBigEndian_storeBigEndian (k v : ℕ) (h : v < 256 ^ k) :
    loadBigEndian (storeBigEndian k v) = v := by
  induction k generalizing v with
  | zero =>
    have hv : v = 0 := by simpa using h
    rw [hv]
    rfl
  | succ k ih =>
    have hdiv : v / 256 < 256 ^ k := by
      rw [Nat.div_lt_iff_lt_mul (by decide), ← Nat.pow_succ]
      exact h
    have hbyte : (UInt8.ofNat (v % 256)).toNat = v % 256 := by
      rw [UInt8.toNat_ofNat']
      omega
    rw [storeBigEndian, loadBigEndian, foldl_append, ← loadBigEndian, ih _ hdiv]
    show v / 256 * 256 + (UInt8.ofNat (v % 256)).toNat = v
    omega

/-! ## §2 Decoders -/

universe u

variable {σ α γ : Type u} {β ε : Type*} (view : σ → List β)

/-- Wherever the stream continues with `bytes`, the decoder consumes them and returns `a`. -/
def Decodes (d : StateT σ (Except ε) α) (bytes : List β) (a : α) : Prop :=
  ∀ s rest, view s = bytes ++ rest → ∃ s', d.run s = .ok (a, s') ∧ view s' = rest

variable {view} {d : StateT σ (Except ε) α} {f : α → StateT σ (Except ε) γ} {a : α}

theorem run_bind_ok {s s' : σ} (h : d.run s = .ok (a, s')) : (d >>= f).run s = (f a).run s' := by
  rw [StateT.run_bind, h]
  rfl

theorem run_bind_error {s : σ} {e : ε} (h : d.run s = .error e) : (d >>= f).run s = .error e := by
  rw [StateT.run_bind, h]
  rfl

theorem Decodes.pure (a : α) : Decodes view (pure a : StateT σ (Except ε) α) [] a :=
  fun s _ hs => ⟨s, rfl, hs⟩

variable {bytes : List β} {c : γ}

/-- **Composition.** -/
theorem Decodes.bind {bytes' : List β} (hd : Decodes view d bytes a)
    (hf : Decodes view (f a) bytes' c) :
    Decodes view (d >>= f) (bytes ++ bytes') c := by
  intro s rest hs
  rw [append_assoc] at hs
  obtain ⟨s', hrun, hview⟩ := hd s _ hs
  obtain ⟨s'', hrun', hview'⟩ := hf s' rest hview
  exact ⟨s'', (run_bind_ok hrun).trans hrun', hview'⟩

theorem Decodes.bind_nil (hd : Decodes view d bytes a) (hf : Decodes view (f a) [] c) :
    Decodes view (d >>= f) bytes c := by
  have h := hd.bind hf
  rwa [append_nil] at h

theorem Decodes.guard {p : Prop} [Decidable p] (err : StateT σ (Except ε) α) (hp : ¬ p)
    (hd : Decodes view d bytes a) :
    Decodes view (if p then err else d) bytes a := by
  rwa [if_neg hp]

end Drakeydb.Lib
