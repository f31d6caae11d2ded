import Susanow.Base.Hex
import Susanow.Base.Proc

/-! PCI addresses as text.

`str` prints the domain with at least four digits and the function with at least one, `set`
reads at most four and one. Both fields are wider: an address whose domain needs a fifth
digit is refused, and one whose function needs a second is read back as another. `str`
itself mixes up nothing. -/
namespace Susanow
open Hex

/-- `ssn_pci_address` -/
structure PciAddress where
  dom : BitVec 32
  bus : BitVec 8
  dev : BitVec 8
  fun_ : BitVec 8
  deriving DecidableEq, Repr

namespace PciAddress

/-- `"%04x:%02x:%02x.%01x"` -/
def scanFormat : List Directive := [.hex 4, .lit ':', .hex 2, .lit ':', .hex 2, .lit '.', .hex 1]

/-- `ssn_pci_address::set` -/
def set (str : List Char) : Proc PciAddress Unit :=
  match sscanf scanFormat str with
  | [dom_, bus_, dev_, fun_] => Proc.modify fun _ =>
      {dom := dom_, bus := bus_.setWidth 8, dev := dev_.setWidth 8, fun_ := fun_.setWidth 8}
  | _ => Proc.throw "invalid pci-address format"

/-- `ssn_pci_address::str`: `"%04x:%02x:%02x.%01X"` -/
def str (a : PciAddress) : List Char :=
  print false 4 a.dom.toNat ++ ':' :: (print false 2 a.bus.toNat ++ ':' :: (print false 2 a.dev.toNat ++
    '.' :: print true 1 a.fun_.toNat))

variable {a b : PciAddress}

/-! ### What is scanned -/

theorem scan_byte (upper : Bool) (x : BitVec 8) (rest : List Char) :
    scan 2 (print upper 2 x.toNat ++ rest) = some (BitVec.ofNat 32 x.toNat, rest) :=
  scan_print upper (by decide) (by have := x.isLt; omega) rest

/-- From the domain on, `set` comes as far as the function. -/
theorem sscanf_str (hdom : a.dom.toNat < 0x10000) :
    sscanf scanFormat a.str =
      a.dom :: BitVec.ofNat 32 a.bus.toNat :: BitVec.ofNat 32 a.dev.toNat ::
        sscanf [.hex 1] (print true 1 a.fun_.toNat) := by
  rw [scanFormat, str, sscanf_hex (scan_print false (by decide) hdom _), sscanf_lit,
    sscanf_hex (scan_byte false a.bus _), sscanf_lit, sscanf_hex (scan_byte false a.dev _), sscanf_lit,
    BitVec.ofNat_toNat, BitVec.setWidth_eq]

/-- The fifth digit of a domain stands where the colon is expected. -/
theorem sscanf_str_wide (hdom : 0x10000 ≤ a.dom.toNat) : ∃ v, sscanf scanFormat a.str = [v] := by
  obtain ⟨v, c, s, -, hc, hscan⟩ := scan_print_wide false (w := 4) (by decide) hdom
    (':' :: (print false 2 a.bus.toNat ++ ':' :: (print false 2 a.dev.toNat ++ '.' :: print true 1 a.fun_.toNat)))
  have hcolon : ':' ≠ c := by
    intro h
    rw [← h] at hc
    exact hc (by decide)
  exact ⟨_, by rw [scanFormat, str, sscanf_hex hscan, sscanf_lit_ne hcolon]⟩

theorem setWidth_ofNat_toNat (x : BitVec 8) : (BitVec.ofNat 32 x.toNat).setWidth 8 = x := by
  apply BitVec.eq_of_toNat_eq
  have := x.isLt
  rw [BitVec.toNat_setWidth, BitVec.toNat_ofNat]
  omega

/-- What `set` makes of an address whose domain fits, when `v` is read as its function. -/
theorem set_str (hdom : a.dom.toNat < 0x10000) {v : BitVec 32} {s : List Char}
    (hscan : scan 1 (print true 1 a.fun_.toNat) = some (v, s)) :
    set a.str b = .ret () {a with fun_ := v.setWidth 8} := by
  rw [set, sscanf_str hdom, sscanf_hex hscan]
  simp only [sscanf, setWidth_ofNat_toNat, Proc.modify_run]

/-- A function of two digits is read as the first of them. -/
theorem scan_fun_wide (hfun : 0x10 ≤ a.fun_.toNat) :
    ∃ v s, scan 1 (print true 1 a.fun_.toNat) = some (v, s) ∧ v.setWidth 8 ≠ a.fun_ := by
  obtain ⟨v, c, s, hv, -, hscan⟩ := scan_print_wide true (w := 1) (by decide) hfun []
  rw [List.append_nil] at hscan
  refine ⟨_, _, hscan, ?_⟩
  intro h
  have := congrArg BitVec.toNat h
  rw [BitVec.toNat_setWidth, BitVec.toNat_ofNat] at this
  omega

/-- The fields whose text is no longer than what is read of it. -/
def Fits (a : PciAddress) : Prop := a.dom.toNat < 0x10000 ∧ a.fun_.toNat < 0x10

instance (a : PciAddress) : Decidable a.Fits := inferInstanceAs (Decidable (_ ∧ _))

/-- `set` gives back exactly the addresses that fit. -/
theorem set_str_iff (b : PciAddress) : set a.str b = .ret () a ↔ a.Fits := by
  by_cases hdom : a.dom.toNat < 0x10000
  · by_cases hfun : a.fun_.toNat < 0x10
    · have hscan := scan_print true (w := 1) (by decide) hfun []
      rw [List.append_nil] at hscan
      rw [set_str hdom hscan, setWidth_ofNat_toNat]
      exact iff_of_true rfl ⟨hdom, hfun⟩
    · obtain ⟨v, s, hscan, hne⟩ := scan_fun_wide (not_lt.mp hfun)
      rw [set_str hdom hscan]
      refine iff_of_false ?_ fun h => hfun h.2
      intro h
      injection h with _ h
      exact hne (congrArg PciAddress.fun_ h)
  · obtain ⟨v, hv⟩ := sscanf_str_wide (not_lt.mp hdom)
    refine iff_of_false ?_ fun h => hdom h.1
    rw [set, hv]
    exact nofun

/-! ### What is printed -/

theorem str_injective : Function.Injective str := by
  intro a b h
  rw [str, str] at h
  obtain ⟨hdom, h⟩ := print_cons_inj (by decide) h
  obtain ⟨hbus, h⟩ := print_cons_inj (by decide) h
  obtain ⟨hdev, h⟩ := print_cons_inj (by decide) h
  have hfun := print_injective true 1 h
  cases a
  cases b
  simp only [mk.injEq]
  exact ⟨BitVec.eq_of_toNat_eq hdom, BitVec.eq_of_toNat_eq hbus, BitVec.eq_of_toNat_eq hdev,
    BitVec.eq_of_toNat_eq hfun⟩

/-- The text of an address is read back as the address exactly when the address fits, and no
other address has that text. -/
theorem str_roundtrip (a : PciAddress) :
    (∀ b, set a.str b = .ret () a ↔ a.Fits) ∧ ∀ c : PciAddress, c.str = a.str ↔ c = a :=
  ⟨set_str_iff, fun _ => str_injective.eq_iff⟩

/-- A domain of five digits. -/
def wideDom : PciAddress := {dom := 0x10000, bus := 0, dev := 0, fun_ := 0}

example : wideDom.str = "10000:00:00.0".toList := by decide

theorem not_str_roundtrip : ¬∀ a b : PciAddress, set a.str b = .ret () a := by
  intro h
  exact absurd (h wideDom wideDom) (by decide +kernel)

end PciAddress
end Susanow
