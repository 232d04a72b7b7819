import CspModel.Grouping.Similar
import Mathlib

/-! # Similarity

The greedy partition takes every constraint exactly once and keeps the order within a
part, and whatever joins a part is similar to its first constraint in the same lists
(`partition_spec`).  For predicates this means equal pieces, for layouts that they agree
except for the lists at some positions (`AgreeFrom`).
-/
namespace CspModel

/-! ### Partitioning -/

/-- Whether a form can be in the group of the first one; layouts differ in the lists at
the given positions. -/
def Form.SimilarTo (positions : List Nat) : Form → Form → Prop
  | predicate pieces _, predicate pieces' _ => pieces' = pieces
  | laidOut layout, laidOut layout' => differing? layout layout' = some positions
  | _, _ => False

/-- What joins is similar, in the positions that are settled then. -/
theorem similarTo_of_joins? {first form : Form} {settled settled' : Option (List Nat)}
    (h : joins? first settled form = some settled') {positions : List Nat}
    (hpositions : ∀ known ∈ settled', positions = known) :
    first.SimilarTo positions form ∧ ∀ known ∈ settled, positions = known := by
  unfold joins? at h
  split at h
  · split at h
    · rename_i heq
      cases h
      exact ⟨heq.symm, hpositions⟩
    · cases h
  · split at h
    · cases h
    · rename_i differing hdiffering
      split at h
      · cases h
        rw [Form.SimilarTo, hpositions differing rfl]
        exact ⟨hdiffering, fun known hk => absurd hk (Option.not_mem_none known)⟩
      · split at h
        · rename_i hknown
          cases h
          rw [Form.SimilarTo, (hpositions _ rfl).trans hknown]
          refine ⟨hdiffering, fun known hk => ?_⟩
          cases hk
          exact hknown.symm
        · cases h
  · cases h

theorem takeSimilar_spec (first : Form) (settled : Option (List Nat)) (list : List Candidate) :
    ((takeSimilar first settled list).1 ++ (takeSimilar first settled list).2).Perm list ∧
      (takeSimilar first settled list).1.Sublist list ∧
      (takeSimilar first settled list).2.Sublist list ∧
      ∃ positions, (∀ known ∈ settled, positions = known) ∧
        ∀ c ∈ (takeSimilar first settled list).1, first.SimilarTo positions c.form := by
  induction list generalizing settled with
  | nil =>
    refine ⟨.nil, .slnil, .slnil, settled.getD [], fun known hk => ?_, fun c hc => nomatch hc⟩
    cases hk
    rfl
  | cons c rest ih =>
    rw [takeSimilar]
    split
    · rename_i settled' hjoins
      obtain ⟨hperm, hmembers, hothers, positions, hsettled, hsimilar⟩ := ih settled'
      obtain ⟨hc, hknown⟩ := similarTo_of_joins? hjoins hsettled
      refine ⟨hperm.cons c, hmembers.cons_cons c, hothers.cons c, positions, hknown, ?_⟩
      intro c' hc'
      rcases List.mem_cons.mp hc' with rfl | hc'
      · exact hc
      · exact hsimilar c' hc'
    · obtain ⟨hperm, hmembers, hothers, hpositions⟩ := ih settled
      exact ⟨List.perm_middle.trans (hperm.cons c), hmembers.cons c, hothers.cons_cons c, hpositions⟩

/-- The parts together are the list, each in the order of the list, and all of a part are
similar to its first. -/
theorem partition_spec (list : List Candidate) :
    (partition list).flatten.Perm list ∧ ∀ part ∈ partition list, part.Sublist list ∧
      ∃ first rest positions, part = first :: rest ∧
        ∀ c ∈ rest, first.form.SimilarTo positions c.form := by
  induction list using partition.induct with
  | case1 =>
    rw [partition]
    exact ⟨.nil, fun part hpart => nomatch hpart⟩
  | case2 first rest parts ih =>
    obtain ⟨hperm, hmembers, hothers, positions, _, hsimilar⟩ := takeSimilar_spec first.form none rest
    obtain ⟨hflatten, hparts⟩ := ih
    rw [partition]
    refine ⟨((hflatten.append_left _).trans hperm).cons first, fun part hpart => ?_⟩
    rcases List.mem_cons.mp hpart with rfl | hpart
    · exact ⟨hmembers.cons_cons first, first, _, positions, rfl, hsimilar⟩
    · obtain ⟨hsublist, hpart⟩ := hparts part hpart
      exact ⟨(hsublist.trans hothers).cons first, hpart⟩

/-! ### Layouts that differ in some lists -/

/-- Whether two rows of arguments, counted from a position on, differ in nothing but the
lists at the given positions, which have the same lengths. -/
inductive AgreeFrom (positions : List Nat) : Nat → List Argument → List Argument → Prop
  | nil {p : Nat} : AgreeFrom positions p [] []
  | same {p : Nat} {a : Argument} {as bs : List Argument} : p ∉ positions →
      AgreeFrom positions (p + 1) as bs → AgreeFrom positions p (a :: as) (a :: bs)
  | list {p : Nat} {name : String} {attributes : List (String × String)}
      {list list' : List Parameter} {as bs : List Argument} : p ∈ positions →
      list.length = list'.length → AgreeFrom positions (p + 1) as bs →
      AgreeFrom positions p (⟨name, attributes, .parameters list⟩ :: as)
        (⟨name, attributes, .parameters list'⟩ :: bs)

namespace AgreeFrom

/-- Only the positions from the first one on matter. -/
theorem congr {positions positions' : List Nat} {p : Nat} {as bs : List Argument}
    (h : AgreeFrom positions p as bs) (hiff : ∀ q, p ≤ q → (q ∈ positions ↔ q ∈ positions')) :
    AgreeFrom positions' p as bs := by
  induction h with
  | nil => exact .nil
  | @same p _ _ _ hp _ ih =>
    exact .same (mt (hiff p (Nat.le_refl p)).mpr hp) (ih fun q hq => hiff q (Nat.le_of_succ_le hq))
  | @list p _ _ _ _ _ _ hp hlength _ ih =>
    exact .list ((hiff p (Nat.le_refl p)).mp hp) hlength
      (ih fun q hq => hiff q (Nat.le_of_succ_le hq))

theorem left {positions : List Nat} {p : Nat} {as bs : List Argument}
    (h : AgreeFrom positions p as bs) : AgreeFrom positions p as as := by
  induction h with
  | nil => exact .nil
  | same hp _ ih => exact .same hp ih
  | list hp _ _ ih => exact .list hp rfl ih

end AgreeFrom

/-- The positions in which rows of arguments differ ascend, and the rows agree except for
the lists there. -/
theorem differingFrom_spec {p : Nat} {as bs : List Argument} {positions : List Nat}
    (hlength : as.length = bs.length) (h : differingFrom p as bs = some positions) :
    (∀ q ∈ positions, p ≤ q) ∧ positions.Pairwise (· < ·) ∧ AgreeFrom positions p as bs := by
  induction as generalizing p bs positions with
  | nil =>
    obtain rfl := List.eq_nil_of_length_eq_zero hlength.symm
    cases h
    exact ⟨fun q hq => (nomatch hq), .nil, .nil⟩
  | cons a as ih =>
    cases bs with
    | nil => cases hlength
    | cons b bs =>
      have hlengths : as.length = bs.length := Nat.succ.inj hlength
      obtain ⟨name, attributes, content⟩ := a
      obtain ⟨name', attributes', content'⟩ := b
      rw [differingFrom] at h
      split at h
      · rename_i heq
        obtain ⟨rfl, rfl⟩ : name = name' ∧ attributes = attributes' := heq
        split at h
        · rename_i hcontent
          obtain rfl : content = content' := hcontent
          obtain ⟨hle, hsorted, hagree⟩ := ih hlengths h
          exact ⟨fun q hq => Nat.le_of_succ_le (hle q hq), hsorted,
            .same (fun hp => Nat.not_succ_le_self p (hle p hp)) hagree⟩
        · split at h
          · rename_i list list' hlist hlist'
            split at h
            · rename_i hsame
              obtain ⟨rest, hrest, rfl⟩ := Option.map_eq_some_iff.mp h
              obtain ⟨hle, hsorted, hagree⟩ := ih hlengths hrest
              cases hlist
              cases hlist'
              refine ⟨List.forall_mem_cons.mpr ⟨Nat.le_refl p, fun q hq =>
                Nat.le_of_succ_le (hle q hq)⟩, .cons hle hsorted,
                .list List.mem_cons_self hsame (hagree.congr fun q hq => ?_)⟩
              -- the position just met lies before the rest
              have hne : q ≠ p := by omega
              simp [hne]
            · cases h
          · cases h
      · cases h

/-- Layouts in one group have the same names and attributes, and their arguments differ
in nothing but some lists. -/
theorem differing?_spec {first other : Layout} {positions : List Nat}
    (h : differing? first other = some positions) :
    first.name = other.name ∧ first.attributes = other.attributes ∧
      positions.Pairwise (· < ·) ∧ AgreeFrom positions 0 first.arguments other.arguments := by
  unfold differing? at h
  split at h
  · rename_i hsame
    obtain ⟨_, hname, hattributes, hlength⟩ := hsame
    obtain ⟨hdiffering, _⟩ := Option.filter_eq_some_iff.mp h
    obtain ⟨_, hsorted, hagree⟩ := differingFrom_spec hlength hdiffering
    exact ⟨hname, hattributes, hsorted, hagree⟩
  · cases h

end CspModel
