import BermudaOS.Net.TokenBucket
import Mathlib.Tactic.IntervalCases

/-! The VLAN tags of `net/core/vlan.c`: a tag in memory, and the raw word of a packet. -/
namespace BermudaOS.Net.Vlan
open TokenBucket

def IEEE8021Q_ETHERNET_TYPE : BitVec 16 := 0x8100

def TCI_VLAN_ID_MASK : BitVec 16 := 0xFFF

def TCI_FORMAT_SHIFT : Nat := 12

def TCI_FORMAT_MASK : BitVec 16 := 0b1

def TCI_PRIO_SHIFT : Nat := 13

def TCI_PRIO_MASK : BitVec 16 := 0b111

structure VlanTag where
  protocolTag : BitVec 16
  prio : BitVec 3
  format : BitVec 1
  vlanId : BitVec 12
  deriving DecidableEq

def byteSwap2 (val : BitVec 16) : BitVec 16 := (val &&& 0xff) <<< 8 ||| (val &&& 0xff00) >>> 8

def htons (word : BitVec 16) : BitVec 16 := byteSwap2 word

def ntohs (word : BitVec 16) : BitVec 16 := byteSwap2 word

def tagOf (tci : BitVec 16) : VlanTag where
  protocolTag := IEEE8021Q_ETHERNET_TYPE
  vlanId := (tci &&& TCI_VLAN_ID_MASK).setWidth 12
  format := (tci >>> TCI_FORMAT_SHIFT &&& TCI_FORMAT_MASK).setWidth 1
  prio := (tci >>> TCI_PRIO_SHIFT &&& TCI_PRIO_MASK).setWidth 3

def VlanTag.tci (tag : VlanTag) : BitVec 16 :=
  tag.vlanId.setWidth 16 ||| tag.format.setWidth 16 <<< TCI_FORMAT_SHIFT ||| tag.prio.setWidth 16 <<< TCI_PRIO_SHIFT

/-- The tags in memory, with what a tag at `NULL` would be. -/
abbrev Memory := Option Ptr → VlanTag

/-- `malloc` is the pointer that it returns, which is not checked. -/
def vlanExtract (malloc : Option Ptr) (nb : Netbuff) (m : Memory) : Memory × Option Ptr :=
  if nb.rawVlan = 0 then (m,none)
  else
    let tag := malloc
    -- the argument of `ntohs` has 16 bits
    let tci := ntohs (nb.rawVlan.setWidth 16)
    (Function.update m tag (tagOf tci),tag)

def vlanInflate (nb : Netbuff) (m : Memory) : BitVec 32 :=
  match nb.vlan with
  | none => 0
  | some tag =>
    let raw := htons (m (some tag)).tci
    (htons IEEE8021Q_ETHERNET_TYPE).setWidth 32 <<< 16 ||| raw.setWidth 32

def Extracts (malloc : Option Ptr) (nb : Netbuff) (m : Memory) (tag : VlanTag) : Prop :=
  ∃ p, (vlanExtract malloc nb m).2 = some p ∧ (vlanExtract malloc nb m).1 (some p) = tag

/-- The tag of a packet survives its raw word, and the raw word of a packet its tag. -/
structure Inverse (malloc : Option Ptr) (nb : Netbuff) (m : Memory) : Prop where
  tagged : ∀ p, nb.vlan = some p → (m (some p)).protocolTag = IEEE8021Q_ETHERNET_TYPE →
    Extracts malloc {nb with rawVlan := vlanInflate nb m} m (m (some p))
  untagged : nb.vlan = none → vlanInflate nb m = 0 ∧
    (vlanExtract malloc {nb with rawVlan := vlanInflate nb m} m).2 = none
  raw : ∀ p, (vlanExtract malloc nb m).2 = some p →
    vlanInflate {nb with vlan := some p} (vlanExtract malloc nb m).1 = nb.rawVlan

variable {malloc : Option Ptr} {nb : Netbuff} {m : Memory} {p : Ptr} {tag : VlanTag}

theorem byteSwap2_twice (word : BitVec 16) : byteSwap2 (byteSwap2 word) = word := by
  unfold byteSwap2
  ext i inside
  interval_cases i <;> simp

theorem tagOf_tci (standard : tag.protocolTag = IEEE8021Q_ETHERNET_TYPE) : tagOf tag.tci = tag := by
  obtain ⟨protocolTag,prio,format,vlanId⟩ := tag
  obtain rfl : protocolTag = IEEE8021Q_ETHERNET_TYPE := standard
  unfold tagOf VlanTag.tci TCI_FORMAT_SHIFT TCI_PRIO_SHIFT TCI_VLAN_ID_MASK TCI_FORMAT_MASK TCI_PRIO_MASK
  congr 1
  · ext i inside
    interval_cases i <;> simp
  · ext i inside
    interval_cases i
    simp
  · ext i inside
    interval_cases i <;> simp

theorem tci_tagOf (tci : BitVec 16) : (tagOf tci).tci = tci := by
  unfold tagOf VlanTag.tci TCI_FORMAT_SHIFT TCI_PRIO_SHIFT TCI_VLAN_ID_MASK TCI_FORMAT_MASK TCI_PRIO_MASK
  ext i inside
  interval_cases i <;> simp

theorem low_half (high low : BitVec 16) : (high.setWidth 32 <<< 16 ||| low.setWidth 32).setWidth 16 = low := by
  ext i inside
  simp

theorem high_half (high low : BitVec 16) : (high.setWidth 32 <<< 16 ||| low.setWidth 32) >>> 16 = high.setWidth 32 := by
  ext i inside
  interval_cases i <;> simp

theorem halves (raw : BitVec 32) : raw >>> 16 <<< 16 ||| (raw.setWidth 16).setWidth 32 = raw := by
  ext i inside
  interval_cases i <;> simp

theorem inflate_tag (present : nb.vlan = some p) : vlanInflate nb m =
    (htons IEEE8021Q_ETHERNET_TYPE).setWidth 32 <<< 16 ||| (htons (m (some p)).tci).setWidth 32 := by
  rw [vlanInflate,present]

/-- The raw word of a tag shows the protocol, so it is not zero. -/
theorem inflate_high (present : nb.vlan = some p) :
    vlanInflate nb m >>> 16 = (htons IEEE8021Q_ETHERNET_TYPE).setWidth 32 := by
  rw [inflate_tag present]
  exact high_half ..

theorem inflate_low (present : nb.vlan = some p) : ntohs ((vlanInflate nb m).setWidth 16) = (m (some p)).tci := by
  rw [inflate_tag present,low_half]
  exact byteSwap2_twice _

theorem inflate_nonzero (present : nb.vlan = some p) : vlanInflate nb m ≠ 0 := by
  intro zero
  have high := inflate_high (m := m) present
  rw [zero] at high
  exact absurd high (by decide)

theorem extract_raw (nonzero : nb.rawVlan ≠ 0) : vlanExtract malloc nb m =
    (Function.update m malloc (tagOf (ntohs (nb.rawVlan.setWidth 16))),malloc) := if_neg nonzero

theorem extracts_inflated (present : nb.vlan = some p) (standard : (m (some p)).protocolTag = IEEE8021Q_ETHERNET_TYPE) :
    Extracts malloc {nb with rawVlan := vlanInflate nb m} m (m (some p)) ↔ malloc ≠ none := by
  have extract : vlanExtract malloc {nb with rawVlan := vlanInflate nb m} m = _ := extract_raw (inflate_nonzero present)
  rw [inflate_low present,tagOf_tci standard] at extract
  rw [Extracts,extract]
  cases malloc with
  | none => simp
  | some q => simp

theorem inflates_extracted (accepted : (vlanExtract malloc nb m).2 = some p) :
    vlanInflate {nb with vlan := some p} (vlanExtract malloc nb m).1 = nb.rawVlan ↔
      nb.rawVlan >>> 16 = (htons IEEE8021Q_ETHERNET_TYPE).setWidth 32 := by
  have nonzero : nb.rawVlan ≠ 0 := by
    intro zero
    rw [vlanExtract,if_pos zero] at accepted
    cases accepted
  rw [extract_raw nonzero] at accepted ⊢
  obtain rfl : malloc = some p := accepted
  rw [inflate_tag rfl]
  dsimp only
  rw [Function.update_self,tci_tagOf]
  constructor
  · intro same
    rw [← same]
    exact high_half ..
  · intro high
    rw [← high,htons,ntohs,byteSwap2_twice]
    exact halves nb.rawVlan

/-- With a block for the tag, the two are inverse for the raw words of the protocol. -/
theorem vlan_inverse (malloc : Option Ptr) (nb : Netbuff) (m : Memory) : Inverse malloc nb m ↔
    (malloc = none → ∀ p, nb.vlan = some p → (m (some p)).protocolTag ≠ IEEE8021Q_ETHERNET_TYPE) ∧
    (malloc ≠ none → nb.rawVlan ≠ 0 → nb.rawVlan >>> 16 = (htons IEEE8021Q_ETHERNET_TYPE).setWidth 32) := by
  constructor
  · intro inverse
    refine ⟨fun refused p present standard => ?_,fun granted nonzero => ?_⟩
    · exact (extracts_inflated present standard).mp (inverse.tagged p present standard) refused
    · obtain ⟨p,rfl⟩ := Option.ne_none_iff_exists'.mp granted
      have accepted : (vlanExtract (some p) nb m).2 = some p := by rw [extract_raw nonzero]
      exact (inflates_extracted accepted).mp (inverse.raw p accepted)
  · rintro ⟨untaken,protocol⟩
    refine ⟨fun p present standard => ?_,fun absent => ?_,fun p accepted => ?_⟩
    · exact (extracts_inflated present standard).mpr fun refused => untaken refused p present standard
    · have zero : vlanInflate nb m = 0 := by rw [vlanInflate,absent]
      exact ⟨zero,by rw [vlanExtract,if_pos zero]⟩
    · have nonzero : nb.rawVlan ≠ 0 := by
        intro zero
        rw [vlanExtract,if_pos zero] at accepted
        cases accepted
      have granted : malloc ≠ none := by
        rw [extract_raw nonzero] at accepted
        simp [show malloc = some p from accepted]
      exact (inflates_extracted accepted).mpr (protocol granted nonzero)

/-- A raw word that has no protocol in it. -/
def plain : Netbuff := ⟨none,⟨0x300,by decide⟩,⟨0x400,by decide⟩,0,1,none,60⟩

/-- Its tag says that it has, and goes back into another word. -/
theorem inflate_differs : ¬ Inverse (some ⟨0x200,by decide⟩) plain fun _ => ⟨0,0,0,0⟩ := by
  intro inverse
  have same := inverse.raw ⟨0x200,by decide⟩ (by decide)
  exact absurd same (by decide)

end BermudaOS.Net.Vlan
