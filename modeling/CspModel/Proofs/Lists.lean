import Mathlib

/-! # Lists

What the development needs of lists and is not about any of its objects: mapping by a
function without a value everywhere, lists that correspond entry by entry, and lists
without their repetitions.
-/
namespace CspModel

/-! ### Mapping by a partial function -/

/-- A list is mapped successfully when every entry is, to the entry at its place. -/
theorem mapM_eq_some_iff {α β : Type} {f : α → Option β} {as : List α} {bs : List β} :
    as.mapM f = some bs ↔ List.Forall₂ (fun a b => f a = some b) as bs := by
  induction as generalizing bs with
  | nil => cases bs <;> simp
  | cons a as ih =>
    rw [List.mapM_cons]
    constructor
    · intro h
      simp only [Option.bind_eq_bind, Option.bind_eq_some_iff] at h
      obtain ⟨b, hb, bs', hbs', h⟩ := h
      cases h
      exact .cons hb (ih.mp hbs')
    · intro h
      cases h with
      | cons hb hbs => simp [hb, ih.mpr hbs]

theorem exists_of_mapM_eq_some {α β : Type} {f : α → Option β} {as : List α} {bs : List β}
    (h : as.mapM f = some bs) {a : α} (ha : a ∈ as) : ∃ b, f a = some b := by
  induction as generalizing bs with
  | nil => cases ha
  | cons a' as ih =>
    obtain _ | ⟨hb, hbs⟩ := mapM_eq_some_iff.mp h
    rcases List.mem_cons.mp ha with rfl | ha
    · exact ⟨_, hb⟩
    · exact ih (mapM_eq_some_iff.mpr hbs) ha

theorem exists_of_mem_mapM {α β : Type} {f : α → Option β} {as : List α} {bs : List β}
    (h : as.mapM f = some bs) {b : β} (hb : b ∈ bs) : ∃ a ∈ as, f a = some b := by
  rw [mapM_eq_some_iff] at h
  induction h with
  | nil => cases hb
  | @cons a b' as bs hab _ ih =>
    rcases List.mem_cons.mp hb with rfl | hb
    · exact ⟨a, List.mem_cons_self, hab⟩
    · obtain ⟨a', ha', hb⟩ := ih hb
      exact ⟨a', List.mem_cons_of_mem a ha', hb⟩

theorem mapM_congr {α β : Type} {f g : α → Option β} {as : List α} (h : ∀ a ∈ as, f a = g a) :
    as.mapM f = as.mapM g := by
  induction as with
  | nil => rfl
  | cons a as ih =>
    rw [List.mapM_cons, List.mapM_cons, h a List.mem_cons_self,
      ih fun b hb => h b (List.mem_cons_of_mem a hb)]

/-! ### Lists that correspond -/

theorem exists_of_forall₂_of_mem {α β : Type} {R : α → β → Prop} {as : List α} {bs : List β}
    (h : List.Forall₂ R as bs) {b : β} (hb : b ∈ bs) : ∃ a ∈ as, R a b := by
  induction h with
  | nil => cases hb
  | @cons a _ _ _ hab _ ih =>
    rcases List.mem_cons.mp hb with rfl | hb
    · exact ⟨a, List.mem_cons_self, hab⟩
    · obtain ⟨a', ha', h⟩ := ih hb
      exact ⟨a', List.mem_cons_of_mem _ ha', h⟩

/-- Lists correspond when they are as long and their entries at every place do. -/
theorem forall₂_iff_getElem? {α β : Type} {R : α → β → Prop} {as : List α} {bs : List β} :
    List.Forall₂ R as bs ↔ as.length = bs.length ∧
      ∀ (k : Nat) a b, as[k]? = some a → bs[k]? = some b → R a b := by
  rw [List.forall₂_iff_get]
  refine and_congr_right fun _ => ⟨fun h k a b ha hb => ?_, fun h k hk hk' => ?_⟩
  · obtain ⟨hk, rfl⟩ := List.getElem?_eq_some_iff.mp ha
    obtain ⟨hk', rfl⟩ := List.getElem?_eq_some_iff.mp hb
    exact h k hk hk'
  · exact h k _ _ (List.getElem?_eq_getElem hk) (List.getElem?_eq_getElem hk')

/-- Lists with the same images are the same where the map tells their entries apart. -/
theorem eq_of_map_eq {α β : Type} {f : α → β} {as bs : List α}
    (hf : ∀ a ∈ as, ∀ b ∈ bs, f a = f b → a = b) (h : as.map f = bs.map f) : as = bs := by
  induction as generalizing bs with
  | nil => exact (List.map_eq_nil_iff.mp h.symm).symm
  | cons a as ih =>
    obtain ⟨b, bs, rfl, hb, hbs⟩ := List.map_eq_cons_iff.mp h.symm
    rw [hf a List.mem_cons_self b List.mem_cons_self hb.symm,
      ih (fun a ha b hb => hf a (List.mem_cons_of_mem _ ha) b (List.mem_cons_of_mem _ hb)) hbs.symm]

/-- A list is the list of its entries. -/
theorem filterMap_getElem?_range {α : Type} (list : List α) :
    (List.range list.length).filterMap (list[·]?) = list := by
  induction list with
  | nil => rfl
  | cons a rest ih =>
    rw [List.length_cons, List.range_succ_eq_map, List.filterMap_cons, List.filterMap_map]
    exact congrArg (a :: ·) ih

/-! ### Lists that end before a separator -/

/-- Two texts are told apart from what follows them when that begins with something that
is in neither. -/
theorem append_inj_of_ends {α : Type} {p : α → Bool} {as as' bs bs' : List α}
    (has : ∀ a ∈ as, p a = true) (has' : ∀ a ∈ as', p a = true)
    (hbs : ∀ b ∈ bs.head?, p b = false) (hbs' : ∀ b ∈ bs'.head?, p b = false)
    (h : as ++ bs = as' ++ bs') : as = as' ∧ bs = bs' := by
  have hends : ∀ {list : List α}, (∀ b ∈ list.head?, p b = false) → list.takeWhile p = [] := by
    intro list hlist
    cases list with
    | nil => rfl
    | cons b rest => rw [List.takeWhile_cons, hlist b rfl, if_neg Bool.false_ne_true]
  have htake := congrArg (List.takeWhile p) h
  rw [List.takeWhile_append_of_pos has, List.takeWhile_append_of_pos has', hends hbs, hends hbs',
    List.append_nil, List.append_nil] at htake
  subst htake
  exact ⟨rfl, List.append_cancel_left h⟩

theorem append_cons_inj {α : Type} [DecidableEq α] {a : α} {as as' bs bs' : List α} (has : a ∉ as)
    (has' : a ∉ as') (h : as ++ a :: bs = as' ++ a :: bs') : as = as' ∧ bs = bs' := by
  have hp : ∀ {list : List α}, a ∉ list → ∀ b ∈ list, (b != a) = true := fun hlist b hb =>
    bne_iff_ne.mpr fun heq => hlist (heq ▸ hb)
  have hends : ∀ {list : List α}, ∀ b ∈ (a :: list).head?, (b != a) = false := by
    intro list b hb
    cases hb
    exact bne_self_eq_false a
  obtain ⟨heq, hrest⟩ := append_inj_of_ends (hp has) (hp has') hends hends h
  exact ⟨heq, (List.cons.inj hrest).2⟩

/-- A list is cut at the first occurrence of an element. -/
theorem takeWhile_dropWhile_ne {α : Type} [BEq α] [LawfulBEq α] {a : α} {as bs : List α}
    (has : a ∉ as) (hbs : ∀ b ∈ bs.head?, b = a) :
    (as ++ bs).takeWhile (· != a) = as ∧ (as ++ bs).dropWhile (· != a) = bs := by
  have hp : ∀ b ∈ as, (b != a) = true := fun b hb => bne_iff_ne.mpr fun heq => has (heq ▸ hb)
  rw [List.takeWhile_append_of_pos hp, List.dropWhile_append_of_pos hp]
  cases bs with
  | nil => simp
  | cons b rest =>
    obtain rfl := hbs b rfl
    simp

theorem takeWhile_dropWhile_ne_self {α : Type} [BEq α] [LawfulBEq α] {a : α} {as : List α}
    (has : a ∉ as) : as.takeWhile (· != a) = as ∧ as.dropWhile (· != a) = [] := by
  have h := takeWhile_dropWhile_ne has fun b (hb : b ∈ [].head?) => nomatch hb
  rwa [List.append_nil] at h

theorem flatMap_filter {α β : Type} (p : α → Prop) [DecidablePred p] (f : α → List β)
    (list : List α) :
    (list.filter (p ·)).flatMap f = list.flatMap fun a => if p a then f a else [] := by
  induction list with
  | nil => rfl
  | cons a rest ih =>
    rw [List.filter_cons, List.flatMap_cons, ← ih]
    by_cases h : p a <;> simp [h]

theorem intercalate_nil_cons {α : Type} (a : α) (lists : List (List α)) :
    [a].intercalate ([] :: lists) = lists.flatMap (a :: ·) := by
  induction lists with
  | nil => rfl
  | cons list rest ih =>
    rw [List.intercalate_cons_cons, List.flatMap_cons, ← ih]
    cases rest with
    | nil => simp
    | cons next rest => simp [List.intercalate_cons_cons]

/-! ### Lists without repetitions -/

theorem map_some_filterMap_id {α : Type} {list : List (Option α)}
    (h : ∀ a ∈ list, a.isSome = true) : (list.filterMap id).map some = list := by
  induction list with
  | nil => rfl
  | cons a rest ih =>
    obtain ⟨ha, hrest⟩ := List.forall_mem_cons.mp h
    obtain ⟨value, rfl⟩ := Option.isSome_iff_exists.mp ha
    show some value :: (rest.filterMap id).map some = _
    rw [ih hrest]

theorem length_eraseDups_le {α : Type} [BEq α] (list : List α) :
    list.eraseDups.length ≤ list.length := by
  induction hn : list.length using Nat.strongRecOn generalizing list with
  | ind n ih =>
    cases list with
    | nil => exact Nat.zero_le n
    | cons a rest =>
      have hfilter := List.length_filter_le (fun b => !b == a) rest
      rw [List.length_cons] at hn
      rw [List.eraseDups_cons, List.length_cons]
      have := ih _ (by omega) (rest.filter fun b => !b == a) rfl
      omega

theorem nodup_eraseDups {α : Type} [DecidableEq α] (list : List α) : list.eraseDups.Nodup := by
  induction hn : list.length using Nat.strongRecOn generalizing list with
  | ind n ih =>
    cases list with
    | nil => exact List.nodup_nil
    | cons a rest =>
      have hfilter := List.length_filter_le (fun b => !b == a) rest
      rw [List.length_cons] at hn
      rw [List.eraseDups_cons]
      refine List.nodup_cons.mpr ⟨fun ha => ?_, ih _ (by omega) _ rfl⟩
      simpa using List.mem_filter.mp (List.mem_eraseDups.mp ha)

/-- As many different numbers as there are below a bound, if there are no others. -/
theorem length_eraseDups_of_mem_iff {list : List Nat} {m : Nat} (h : ∀ k, k ∈ list ↔ k < m) :
    list.eraseDups.length = m := by
  have hperm : list.eraseDups.Perm (List.range m) :=
    (List.perm_ext_iff_of_nodup (nodup_eraseDups list) List.nodup_range).mpr fun k => by
      rw [List.mem_eraseDups, h, List.mem_range]
  rw [hperm.length_eq, List.length_range]

end CspModel
