import Nmos6502.Proofs.Arrangement

/-! # Groups one behind the other

Where no operand of the second groups names a symbol of the first, the least choice of widths
for both is the least choice for the first groups, followed by that for the second at the place
where the first ones end. Images and, if no name is shared, symbols follow one another as well.
-/
namespace Nmos6502.Assembly
open Finset WidthChoice

/-- No name that the second groups wait for is defined by the first ones. -/
def Apart (groups others : List Group) : Prop :=
  ∀ g ∈ others, ∀ name, g.awaited? = some name → ∀ d ∈ groups, d.defines name = false

/-- No name is defined by groups of both. -/
def ShareNoName (groups others : List Group) : Prop :=
  ∀ g ∈ groups, ∀ h ∈ others, ∀ name, g.defines name = true → h.defines name = false

namespace WidthChoice
variable {origin : ℕ} {groups others : List Group} {V W : WidthChoice}

def join (n : ℕ) (V W : WidthChoice) : WidthChoice := fun i => if i < n then V i else W (i - n)

def behind (n : ℕ) (W : WidthChoice) : WidthChoice := fun j => W (n + j)

theorem behind_join (n : ℕ) (V W : WidthChoice) : behind n (join n V W) = W := by
  funext j
  simp [behind, join]

theorem join_of_lt {n i : ℕ} (h : i < n) : join n V W i = V i := if_pos h

theorem place_congr {i : ℕ} (h : ∀ j < i, V j = W j) :
    place origin groups V i = place origin groups W i := by
  refine congrArg (origin + ·) (sum_congr rfl fun j hj => ?_)
  rw [sizeAt, sizeAt, h j (mem_range.mp hj)]

section
variable (h : ∀ j < groups.length, V j = W j)
include h

theorem value?_congr : value? origin groups V = value? origin groups W := by
  funext name
  unfold value?
  cases hi : groups.findIdx? (Group.defines name) with
  | none => rfl
  | some i =>
    have hlt := (List.findIdx?_eq_some_iff_getElem.mp hi).1
    rw [Option.bind_some, Option.bind_some, place_congr fun j hj => h j (hj.trans hlt)]

theorem widen_congr : widen origin groups V = widen origin groups W := by
  funext i
  rw [widen, widen, value?_congr h]

theorem arrange_congr : arrange origin groups V = arrange origin groups W := by
  refine List.ext_getElem (by simp only [length_arrange]) fun i hi _ => ?_
  have hlt : i < groups.length := length_arrange .. ▸ hi
  have hplace : ∀ j ≤ groups.length, place origin groups V j = place origin groups W j :=
    fun j hj => place_congr fun k hk => h k (hk.trans_le hj)
  simp only [arrange, List.getElem_mapIdx, groupAt, operandAt, h i hlt, value?_congr h,
    hplace i hlt.le, hplace (i + 1) hlt]

end

theorem widen_of_length_le {i : ℕ} (h : groups.length ≤ i) : widen origin groups W i = false := by
  rw [widen, List.getElem?_eq_none h, Option.any_none]

theorem sizeAt_append_left {i : ℕ} (h : i < groups.length) :
    sizeAt (groups ++ others) W i = sizeAt groups W i := by
  rw [sizeAt, sizeAt, List.getElem?_append_left h]

theorem sizeAt_append_right (j : ℕ) :
    sizeAt (groups ++ others) W (groups.length + j) =
      sizeAt others (behind groups.length W) j := by
  rw [sizeAt, sizeAt, List.getElem?_append_right (Nat.le_add_right ..), Nat.add_sub_cancel_left]
  rfl

theorem place_append_left {i : ℕ} (h : i ≤ groups.length) :
    place origin (groups ++ others) W i = place origin groups W i :=
  congrArg (origin + ·)
    (sum_congr rfl fun _ hj => sizeAt_append_left ((mem_range.mp hj).trans_le h))

theorem place_append_right (j : ℕ) :
    place origin (groups ++ others) W (groups.length + j) =
      place (place origin groups W groups.length) others (behind groups.length W) j := by
  rw [place, sum_range_add, ← Nat.add_assoc, ← place, place_append_left le_rfl]
  exact congrArg _ (sum_congr rfl fun j _ => sizeAt_append_right j)

theorem value?_append_left {name : List Char} (h : ∃ d ∈ groups, d.defines name = true) :
    value? origin (groups ++ others) W name = value? origin groups W name := by
  obtain ⟨i,hi⟩ := Option.isSome_iff_exists.mp
    ((List.findIdx?_isSome (p := Group.defines name)).trans (List.any_eq_true.mpr h))
  have hlt := (List.findIdx?_eq_some_iff_getElem.mp hi).1
  simp only [value?, List.findIdx?_append, hi, Option.some_or, Option.bind_some,
    List.getElem?_append_left hlt, place_append_left hlt.le]

theorem value?_append_right {name : List Char} (h : ∀ d ∈ groups, d.defines name = false) :
    value? origin (groups ++ others) W name =
      value? (place origin groups W groups.length) others (behind groups.length W) name := by
  have hnone : groups.findIdx? (Group.defines name) = none :=
    List.findIdx?_eq_none_iff.mpr h
  unfold value?
  rw [List.findIdx?_append, hnone, Option.none_or]
  cases others.findIdx? (Group.defines name) with
  | none => rfl
  | some j =>
    simp only [Option.map_some, Option.bind_some, Nat.add_comm j, place_append_right,
      List.getElem?_append_right (Nat.le_add_right ..), Nat.add_sub_cancel_left]

theorem bind_value?_append_left (hdef : NamesDefined groups) {g : Group} (hg : g ∈ groups) :
    g.awaited?.bind (value? origin (groups ++ others) W) =
      g.awaited?.bind (value? origin groups W) := by
  cases hn : g.awaited? with
  | none => rfl
  | some name => exact value?_append_left (hdef g hg name hn)

theorem bind_value?_append_right (hapart : Apart groups others) {g : Group} (hg : g ∈ others) :
    g.awaited?.bind (value? origin (groups ++ others) W) = g.awaited?.bind
      (value? (place origin groups W groups.length) others (behind groups.length W)) := by
  cases hn : g.awaited? with
  | none => rfl
  | some name => exact value?_append_right (hapart g hg name hn)

section
variable (hdef : NamesDefined groups)
include hdef

theorem widen_append_left {i : ℕ} (h : i < groups.length) :
    widen origin (groups ++ others) W i = widen origin groups W i := by
  rw [widen, widen, List.getElem?_append_left h, List.getElem?_eq_getElem h, Option.any_some,
    Option.any_some, bind_value?_append_left hdef (List.getElem_mem h)]

variable (hapart : Apart groups others)
include hapart

omit hdef in
theorem widen_append_right (j : ℕ) :
    widen origin (groups ++ others) W (groups.length + j) =
      widen (place origin groups W groups.length) others (behind groups.length W) j := by
  rw [widen, widen, List.getElem?_append_right (Nat.le_add_right ..), Nat.add_sub_cancel_left]
  cases hg : others[j]? with
  | none => rfl
  | some g =>
    rw [Option.any_some, Option.any_some,
      bind_value?_append_right hapart (List.mem_of_getElem? hg)]

theorem widen_append_eq_iff :
    widen origin (groups ++ others) W = W ↔
      (∀ i < groups.length, widen origin groups W i = W i) ∧
        widen (place origin groups W groups.length) others (behind groups.length W) =
          behind groups.length W := by
  constructor
  · intro h
    refine ⟨fun i hi => ?_,funext fun j => ?_⟩
    · rw [← widen_append_left hdef hi, h]
    · rw [← widen_append_right hapart, h]
      rfl
  · rintro ⟨hleft,hright⟩
    funext i
    rcases Nat.lt_or_ge i groups.length with hi | hi
    · rw [widen_append_left hdef hi, hleft i hi]
    · obtain ⟨j,rfl⟩ := Nat.exists_eq_add_of_le hi
      rw [widen_append_right hapart, hright]
      rfl

/-- The least choice for both is that for the first groups, followed by that for the others at
the place where the first ones end. -/
theorem least_append :
    least origin (groups ++ others) = join groups.length (least origin groups)
      (least (place origin groups (least origin groups) groups.length) others) := by
  have hjoin : ∀ i < groups.length, join groups.length (least origin groups)
      (least (place origin groups (least origin groups) groups.length) others) i =
        least origin groups i := fun i hi => join_of_lt hi
  have hle : least origin (groups ++ others) ≤ join groups.length (least origin groups)
      (least (place origin groups (least origin groups) groups.length) others) := by
    refine least_le ((widen_append_eq_iff hdef hapart).mpr ⟨fun i hi => ?_,?_⟩)
    · rw [widen_congr hjoin, widen_least, hjoin i hi]
    · rw [behind_join, place_congr hjoin, widen_least]
  have hfixed : widen origin (groups ++ others) (least origin (groups ++ others)) =
      least origin (groups ++ others) := widen_least
  obtain ⟨hleft,hright⟩ := (widen_append_eq_iff hdef hapart).mp hfixed
  -- the least choice for both, cut off behind the first groups, is one that these agree with
  have hcut : least origin groups ≤ join groups.length (least origin (groups ++ others)) ⊥ := by
    refine least_le (funext fun i => ?_)
    rw [widen_congr fun j hj => join_of_lt hj]
    rcases Nat.lt_or_ge i groups.length with hi | hi
    · rw [hleft i hi, join_of_lt hi]
    · rw [widen_of_length_le hi, join, if_neg hi.not_gt]
      rfl
  have hsame : ∀ i < groups.length, least origin (groups ++ others) i = least origin groups i :=
    fun i hi => le_antisymm ((hle i).trans_eq (hjoin i hi)) ((hcut i).trans_eq (join_of_lt hi))
  rw [place_congr hsame] at hright
  refine le_antisymm hle fun i => ?_
  unfold join
  split
  · rename_i hi
    exact (hsame i hi).ge
  · rename_i hi
    have hbehind := least_le hright (i - groups.length)
    rwa [behind, Nat.add_sub_cancel' (Nat.le_of_not_lt hi)] at hbehind

theorem arrange_append :
    arrange origin (groups ++ others) W = arrange origin groups W ++
      arrange (place origin groups W groups.length) others (behind groups.length W) := by
  rw [arrange, List.mapIdx_append]
  congr 1
  · refine List.ext_getElem (by rw [List.length_mapIdx, length_arrange]) fun i hi _ => ?_
    have hlt : i < groups.length := List.length_mapIdx ▸ hi
    simp only [arrange, List.getElem_mapIdx, groupAt, operandAt, place_append_left hlt.le,
      place_append_left (show i + 1 ≤ groups.length from hlt),
      bind_value?_append_left hdef (List.getElem_mem hlt)]
  · refine List.ext_getElem (by rw [List.length_mapIdx, length_arrange]) fun j hj _ => ?_
    have hlt : j < others.length := List.length_mapIdx ▸ hj
    simp only [arrange, List.getElem_mapIdx, groupAt, operandAt, Nat.add_comm j,
      Nat.add_assoc groups.length, place_append_right,
      bind_value?_append_right hapart (List.getElem_mem hlt)]
    rfl

theorem arrange_least_append :
    let behind := place origin groups (least origin groups) groups.length
    arrange origin (groups ++ others) (least origin (groups ++ others)) =
      arrange origin groups (least origin groups) ++
        arrange behind others (least behind others) := by
  intro e
  have hjoin : ∀ i < groups.length,
      join groups.length (least origin groups) (least e others) i = least origin groups i :=
    fun i hi => join_of_lt hi
  rw [arrange_append hdef hapart, least_append hdef hapart, arrange_congr hjoin,
    place_congr hjoin, behind_join]

end

end WidthChoice

theorem image_eq_ok_iff {gs : List Group} {bytes : List UInt8} :
    image gs = .ok bytes ↔ ∃ parts : List (List UInt8),
      (gs.filter (·.emits)).map Group.image? = parts.map some ∧ parts.flatten = bytes := by
  induction gs generalizing bytes with
  | nil => simp [image]
  | cons g gs ih =>
    cases hemits : g.emits with
    | false =>
      rw [image, hemits, if_neg (by simp), List.filter_cons_of_neg (by simp [hemits])]
      exact ih
    | true =>
      rw [image, hemits, if_pos rfl, List.filter_cons_of_pos (by simp [hemits]), List.map_cons]
      cases himage : g.image? with
      | none =>
        simp only [reduceCtorEq, false_iff, not_exists, not_and]
        rintro (_ | ⟨part,parts⟩) h <;> simp at h
      | some first =>
        rw [map_eq_ok_iff]
        constructor
        · rintro ⟨rest,hrest,rfl⟩
          obtain ⟨parts,hparts,rfl⟩ := ih.mp hrest
          exact ⟨first :: parts,by rw [hparts, List.map_cons],rfl⟩
        · rintro ⟨_ | ⟨part,parts⟩,hparts,rfl⟩
          · simp at hparts
          · rw [List.map_cons, List.cons.injEq, Option.some.injEq] at hparts
            obtain ⟨rfl,hparts⟩ := hparts
            exact ⟨parts.flatten,ih.mpr ⟨parts,hparts,rfl⟩,rfl⟩

theorem image_append {gs hs : List Group} {bytes others : List UInt8} (h : image gs = .ok bytes)
    (h' : image hs = .ok others) : image (gs ++ hs) = .ok (bytes ++ others) := by
  obtain ⟨parts,hparts,rfl⟩ := image_eq_ok_iff.mp h
  obtain ⟨more,hmore,rfl⟩ := image_eq_ok_iff.mp h'
  refine image_eq_ok_iff.mpr ⟨parts ++ more,?_,List.flatten_append⟩
  rw [List.filter_append, List.map_append, hparts, hmore, List.map_append]

theorem length_of_image {gs : List Group} {bytes : List UInt8} (h : image gs = .ok bytes) :
    bytes.length = (gs.map Group.size).sum := by
  induction gs generalizing bytes with
  | nil =>
    cases h
    rfl
  | cons g gs ih =>
    rw [image] at h
    rw [List.map_cons, List.sum_cons, Group.size]
    split at h
    · rename_i hemits
      rw [if_pos hemits]
      split at h
      · cases h
      · rename_i first hfirst
        obtain ⟨rest,hrest,rfl⟩ := map_eq_ok_iff.mp h
        unfold Group.image? at hfirst
        split at hfirst
        · rename_i hcontent
          cases hfirst
          rw [hcontent, List.length_append, List.length_cons, ih hrest, Content.size,
            Nat.add_comm 1]
        · cases hfirst
    · rename_i hquiet
      rw [if_neg hquiet, Nat.zero_add]
      exact ih h

theorem foldl_addSymbol_append {table symbols : List Symbol}
    (h : ∀ s ∈ table, ∀ t ∈ symbols, s.name ≠ t.name) (others : List Symbol) :
    symbols.foldl addSymbol (table ++ others) = table ++ symbols.foldl addSymbol others := by
  induction symbols generalizing others with
  | nil => rfl
  | cons t symbols ih =>
    have hnew : table.any (·.name == t.name) = false := by
      rw [List.any_eq_false]
      exact fun s hs => by simpa using h s hs t (List.mem_cons_self ..)
    have hadd : addSymbol (table ++ others) t = table ++ addSymbol others t := by
      unfold addSymbol
      rw [List.any_append, hnew, Bool.false_or]
      split
      · rfl
      · rw [List.append_assoc]
    rw [List.foldl_cons, hadd, List.foldl_cons]
    exact ih (fun s hs t ht => h s hs t (List.mem_cons_of_mem _ ht)) _

theorem symbolTable_append {gs hs : List Group} (h : ShareNoName gs hs) :
    symbolTable (gs ++ hs) = symbolTable gs ++ symbolTable hs := by
  have hnames : ∀ s ∈ symbolTable gs, ∀ t ∈ hs.filterMap Group.symbol?, s.name ≠ t.name := by
    intro s hs' t ht hname
    have hlookup := unambiguous_symbolTable gs s hs'
    rw [findSymbol_symbolTable] at hlookup
    obtain ⟨g,hg,-⟩ := Option.bind_eq_some_iff.mp hlookup
    obtain ⟨k,hk,hsymbol⟩ := List.mem_filterMap.mp ht
    have hdefines := h g (List.mem_of_find?_eq_some hg) k hk s.name (List.find?_some hg)
    rw [← any_symbol?, hsymbol, Option.any_some, hname] at hdefines
    simp at hdefines
  have happend := foldl_addSymbol_append hnames []
  rw [List.append_nil] at happend
  rw [symbolTable, List.filterMap_append, List.foldl_append]
  exact happend

end Nmos6502.Assembly
