import Gsm.Data.JsText
import Mathlib.Data.List.GetD

/-!
# Base64

Bytes as values of six bits (`sextets`, and `bytes` back again), and with them `btoa` and `atob` of the web. What
`btoa` writes is read back by `atob`, which also reads text with white space in it, without the padding, or with the
bits set that the padding leaves over.
-/

namespace Js

variable {b : List UInt8}

/-- Three bytes are four values. -/
def sextets : List UInt8 → List ℕ
  | x :: y :: z :: rest =>
      x.toNat / 4 :: (x.toNat % 4 * 16 + y.toNat / 16) :: (y.toNat % 16 * 4 + z.toNat / 64) :: z.toNat % 64 ::
        sextets rest
  | [x, y] => [x.toNat / 4, x.toNat % 4 * 16 + y.toNat / 16, y.toNat % 16 * 4]
  | [x] => [x.toNat / 4, x.toNat % 4 * 16]
  | [] => []

/-- Four values are three bytes; of two or three values at the end, the bits left over do not count. -/
def bytes : List ℕ → List UInt8
  | x :: y :: z :: w :: rest =>
      UInt8.ofNat (x * 4 + y / 16) :: UInt8.ofNat (y % 16 * 16 + z / 4) :: UInt8.ofNat (z % 4 * 64 + w) :: bytes rest
  | [x, y, z] => [UInt8.ofNat (x * 4 + y / 16), UInt8.ofNat (y % 16 * 16 + z / 4)]
  | [x, y] => [UInt8.ofNat (x * 4 + y / 16)]
  | _ => []

theorem sextet_lt (b : List UInt8) : ∀ v ∈ sextets b, v < 64 := by
  induction b using sextets.induct with
  | case1 x y z rest ih =>
    have hx := x.toNat_lt
    have hy := y.toNat_lt
    have hz := z.toNat_lt
    rw [sextets]
    simp only [List.mem_cons]
    rintro v (rfl | rfl | rfl | rfl | hmem)
    · omega
    · omega
    · omega
    · omega
    · exact ih v hmem
  | case2 x y =>
    have hx := x.toNat_lt
    have hy := y.toNat_lt
    rw [sextets]
    simp only [List.mem_cons, List.not_mem_nil, or_false]
    rintro v (rfl | rfl | rfl) <;> omega
  | case3 x =>
    have hx := x.toNat_lt
    rw [sextets]
    simp only [List.mem_cons, List.not_mem_nil, or_false]
    rintro v (rfl | rfl) <;> omega
  | case4 => exact nofun

theorem ofNat_eq {x : UInt8} {n : ℕ} (h : n = x.toNat) : UInt8.ofNat n = x := by
  rw [h, UInt8.ofNat_toNat]

@[simp] theorem bytes_sextets (b : List UInt8) : bytes (sextets b) = b := by
  induction b using sextets.induct with
  | case1 x y z rest ih =>
    have hx := x.toNat_lt
    have hy := y.toNat_lt
    have hz := z.toNat_lt
    rw [sextets, bytes, ih, ofNat_eq (x := x) (by omega), ofNat_eq (x := y) (by omega),
      ofNat_eq (x := z) (by omega)]
  | case2 x y =>
    have hx := x.toNat_lt
    have hy := y.toNat_lt
    rw [sextets, bytes, ofNat_eq (x := x) (by omega), ofNat_eq (x := y) (by omega)]
  | case3 x =>
    have hx := x.toNat_lt
    rw [sextets, bytes, ofNat_eq (x := x) (by omega)]
  | case4 => rfl

/-! ## `btoa` and `atob` -/

def padUnit : UInt16 := 0x3D

def alphabet : Text := text "ABCDEFGHIJKLMNOPQRSTUVWXYZabcdefghijklmnopqrstuvwxyz0123456789+/"

def symbol (v : ℕ) : UInt16 := alphabet.getD v padUnit

def sextetOf (u : UInt16) : Option ℕ := alphabet.findIdx? (· == u)

def padding (b : List UInt8) : Text :=
  match b.length % 3 with
  | 1 => [padUnit, padUnit]
  | 2 => [padUnit]
  | _ => []

/-- `btoa` of the string of these bytes -/
def btoa (b : List UInt8) : Text := (sextets b).map symbol ++ padding b

def isAsciiSpace (u : UInt16) : Bool := u == 0x09 || u == 0x0A || u == 0x0C || u == 0x0D || u == 0x20

/-- The text without one sign of padding at its end -/
def unpad (s : Text) : Text := if s.getLast? = some padUnit then s.dropLast else s

/-- `atob`, with the bytes of the string it gives, or none where it throws -/
def atob (s : Text) : Option (List UInt8) :=
  let data := s.filter (!isAsciiSpace ·)
  let data := if data.length % 4 = 0 then unpad (unpad data) else data
  if data.length % 4 = 1 then none else (data.mapM sextetOf).map bytes

variable {s : Text} {v : ℕ}

theorem sextetOf_symbol : ∀ v < 64, sextetOf (symbol v) = some v := by decide

theorem symbol_visible (h : v < 64) : 33 ≤ (symbol v).toNat ∧ (symbol v).toNat < 128 ∧ symbol v ≠ padUnit := by
  have hall : alphabet.all (fun u => decide (33 ≤ u.toNat ∧ u.toNat < 128 ∧ u ≠ padUnit)) = true := by decide
  have hlength : alphabet.length = 64 := by decide
  have hmem : symbol v ∈ alphabet := by
    rw [symbol, List.getD_eq_getElem _ _ (by omega)]
    exact List.getElem_mem _
  exact of_decide_eq_true (List.all_eq_true.mp hall _ hmem)

theorem isAsciiSpace_visible {u : UInt16} (h : 33 ≤ u.toNat) : isAsciiSpace u = false := by
  have hne (n : UInt16) (hn : n.toNat < 33) : (u == n) = false := by
    refine beq_eq_false_iff_ne.mpr ?_
    rintro rfl
    omega
  rw [isAsciiSpace, hne 0x09 (by decide), hne 0x0A (by decide), hne 0x0C (by decide), hne 0x0D (by decide),
    hne 0x20 (by decide)]
  rfl

theorem mapM_symbol {l : List ℕ} (h : ∀ v ∈ l, v < 64) : (l.map symbol).mapM sextetOf = some l := by
  induction l with
  | nil => rfl
  | cons v l ih =>
    rw [List.map_cons, List.mapM_cons, sextetOf_symbol v (h v List.mem_cons_self),
      ih fun w hw => h w (List.mem_cons_of_mem v hw)]
    rfl

@[simp] theorem unpad_append (s : Text) : unpad (s ++ [padUnit]) = s := by
  rw [unpad, List.getLast?_concat, if_pos rfl, List.dropLast_concat]

theorem unpad_of_notMem (h : padUnit ∉ s) : unpad s = s := by
  rw [unpad, if_neg fun hlast => h (List.mem_of_getLast? hlast)]

theorem length_sextets (b : List UInt8) :
    ((sextets b).length + (padding b).length) % 4 = 0 ∧ (sextets b).length % 4 ≠ 1 := by
  induction b using sextets.induct with
  | case1 x y z rest ih =>
    have hpad : padding (x :: y :: z :: rest) = padding rest := by
      rw [padding, padding, List.length_cons, List.length_cons, List.length_cons,
        show (rest.length + 1 + 1 + 1) % 3 = rest.length % 3 by omega]
    rw [hpad, sextets, List.length_cons, List.length_cons, List.length_cons, List.length_cons]
    omega
  | case2 x y => simp [sextets, padding]
  | case3 x => simp [sextets, padding]
  | case4 => simp [sextets, padding]

theorem padding_cases (b : List UInt8) : padding b = [] ∨ padding b = [padUnit] ∨ padding b = [padUnit, padUnit] := by
  rw [padding]
  split
  · exact .inr (.inr rfl)
  · exact .inr (.inl rfl)
  · exact .inl rfl

/-- What `btoa` writes can be seen: it has no white space. -/
theorem btoa_visible {u : UInt16} (hu : u ∈ btoa b) : 33 ≤ u.toNat ∧ u.toNat < 128 := by
  rcases List.mem_append.mp hu with hmem | hmem
  · obtain ⟨v, hv, rfl⟩ := List.mem_map.mp hmem
    obtain ⟨hlow, hhigh, -⟩ := symbol_visible (sextet_lt b v hv)
    exact ⟨hlow, hhigh⟩
  · have hpad : u = padUnit := by
      rcases padding_cases b with h | h | h
      · rw [h] at hmem
        cases hmem
      · rw [h] at hmem
        exact List.mem_singleton.mp hmem
      · rw [h] at hmem
        rcases List.mem_cons.mp hmem with heq | hmem
        · exact heq
        · exact List.mem_singleton.mp hmem
    rw [hpad]
    exact ⟨by decide, by decide⟩

/-- `atob` reads what `btoa` writes. -/
theorem atob_btoa (b : List UInt8) : atob (btoa b) = some b := by
  obtain ⟨hlength, hone⟩ := length_sextets b
  have hdata : (btoa b).filter (!isAsciiSpace ·) = btoa b :=
    List.filter_eq_self.mpr fun u hu => by rw [isAsciiSpace_visible (btoa_visible hu).1]; rfl
  have hpad : padUnit ∉ (sextets b).map symbol := fun hmem => by
    obtain ⟨v, hv, heq⟩ := List.mem_map.mp hmem
    exact (symbol_visible (sextet_lt b v hv)).2.2 heq
  have hunpad : unpad (unpad (btoa b)) = (sextets b).map symbol := by
    rw [btoa]
    rcases padding_cases b with h | h | h
    · rw [h, List.append_nil, unpad_of_notMem hpad, unpad_of_notMem hpad]
    · rw [h, unpad_append, unpad_of_notMem hpad]
    · rw [h, ← List.singleton_append, ← List.append_assoc, unpad_append, unpad_append]
  have hwhole : (btoa b).length % 4 = 0 := by
    rw [btoa, List.length_append, List.length_map]
    exact hlength
  have hvalues : (if (btoa b).length % 4 = 0 then unpad (unpad (btoa b)) else btoa b) =
      (sextets b).map symbol := by
    rw [if_pos hwhole, hunpad]
  rw [atob, hdata, hvalues, List.length_map, if_neg hone, mapM_symbol (sextet_lt b), Option.map_some, bytes_sextets]

end Js
