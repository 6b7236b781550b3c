import SampleFs.Metaserver.Conf
import SampleFs.Proof.Dict.Map

namespace SampleFs.Proof.Conf
open Lib Metaserver

section
variable {V : Type}

/-- The search gives the value of the member with the key, and nothing when there is none. -/
def FindsMember (object : JsonObject V) (key : CString) : Prop :=
  (∀ m ∈ object.members, m.key = key → confSearch (some ⟨some object⟩) (some key) = some m.value) ∧
    ((∀ m ∈ object.members, m.key ≠ key) → confSearch (some ⟨some object⟩) (some key) = none)

def Begins (key : CString) (m : JsonMember V) : Prop := key.bytes <+: m.key.bytes

instance (key : CString) (m : JsonMember V) : Decidable (Begins key m) :=
  inferInstanceAs (Decidable (_ <+: _))

/-- The first member whose key begins with the key has the value that belongs to the key. -/
def FirstIsOwn (object : JsonObject V) (key : CString) : Prop :=
  ∀ before m after, object.members = before ++ m :: after → Begins key m →
    (∀ earlier ∈ before, ¬ Begins key earlier) →
      ∃ own ∈ object.members, own.key = key ∧ own.value = m.value

theorem strncmp_begins (key : CString) (m : JsonMember V) :
    strncmp key.bytes m.key.bytes key.strlen = 0 ↔ Begins key m := by
  rw [strncmp_eq_zero key.noNul m.key.noNul, CString.strlen, List.take_length, Begins, List.prefix_iff_eq_take]

theorem confScan_eq (key : CString) (members : List (JsonMember V)) :
    confScan key members = (members.find? fun m => Begins key m).map JsonMember.value := by
  induction members with
  | nil => rfl
  | cons m rest ih =>
      by_cases begins : Begins key m
      · rw [confScan, if_pos ⟨rfl, (strncmp_begins key m).mpr begins⟩,
          List.find?_cons_of_pos (by simpa using begins)]
        rfl
      · rw [confScan, if_neg fun both => begins ((strncmp_begins key m).mp both.2), ih,
          List.find?_cons_of_neg (by simpa using begins)]

theorem confSearch_eq (object : JsonObject V) (key : CString) :
    confSearch (some ⟨some object⟩) (some key) =
      (object.members.find? fun m => Begins key m).map JsonMember.value :=
  confScan_eq key object.members

theorem member_unique (object : JsonObject V) {m own : JsonMember V} (left : m ∈ object.members)
    (right : own ∈ object.members) (same : m.key = own.key) : m = own :=
  List.inj_on_of_nodup_map object.distinct left right same

theorem begins_own {key : CString} {m : JsonMember V} (own : m.key = key) : Begins key m := by
  rw [Begins, own]

theorem conf_search_exact (object : JsonObject V) (key : CString) :
    FindsMember object key ↔ FirstIsOwn object key := by
  unfold FindsMember
  rw [confSearch_eq]
  constructor
  · rintro ⟨present, absent⟩ before m after split begins misses
    have stops : object.members.find? (fun m => Begins key m) = some m := by
      refine List.find?_eq_some_iff_append.mpr ⟨by simpa using begins, before, after, split, ?_⟩
      simpa using misses
    rw [stops] at present absent
    by_cases stored : ∀ own ∈ object.members, own.key ≠ key
    · cases absent stored
    · push Not at stored
      obtain ⟨own, member, same⟩ := stored
      exact ⟨own, member, same, (Option.some.inj (present own member same)).symm⟩
  · intro leads
    cases found : object.members.find? fun m => Begins key m with
    | none =>
        refine ⟨?_, fun _ => rfl⟩
        intro m member own
        have misses := List.find?_eq_none.mp found m member
        exact absurd (begins_own own) (by simpa using misses)
    | some first =>
        obtain ⟨begins, before, after, split, misses⟩ := List.find?_eq_some_iff_append.mp found
        obtain ⟨own, member, same, value⟩ :=
          leads before first after split (by simpa using begins) (by simpa using misses)
        refine ⟨?_, ?_⟩
        · intro m there named
          rw [member_unique object there member (named.trans same.symm), value]
          rfl
        · intro missing
          exact absurd same (missing own member)

end

/-! ## A longer key in front -/

/-- `{"ab": 1, "a": 2}` -/
def longFirst : JsonObject Nat := ⟨[⟨Dict.keyAB, 1⟩, ⟨Dict.keyA, 2⟩], by decide⟩

theorem conf_search_shadowed : confSearch (some ⟨some longFirst⟩) (some Dict.keyA) = some 1 ∧
    ¬ FindsMember longFirst Dict.keyA := by
  have wrong : confSearch (some ⟨some longFirst⟩) (some Dict.keyA) = some 1 := by decide
  refine ⟨wrong, ?_⟩
  intro finds
  have right := finds.1 ⟨Dict.keyA, 2⟩ (by simp [longFirst]) rfl
  rw [wrong] at right
  cases right

end SampleFs.Proof.Conf
