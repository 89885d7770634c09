import AlpineOnIOS.Vfs.Path
import Mathlib.Logic.Relation

/-!
# Normal paths

`vfs_normalize_path` finds the lexical normal form of a path with a stack of components.
-/

namespace AlpineOnIOS.Vfs

open Foundation List

/-- One reduction of the components of a path from the root. -/
inductive Reduces : List CString → List CString → Prop
  | stay (front back : List CString) : Reduces (front ++ here :: back) (front ++ back)
  | climb (front back : List CString) {name : CString} (isName : IsName name) :
      Reduces (front ++ name :: up :: back) (front ++ back)
  | root (back : List CString) : Reduces (up :: back) back

/-- Names that the components reduce to. -/
def NormalForm (components names : List CString) : Prop :=
  Relation.ReflTransGen Reduces components names ∧ ∀ name ∈ names, IsName name

variable {components names : List CString}

theorem Reduces.foldl_eq {fewer : List CString} (reduces : Reduces components fewer) :
    components.foldl pushComponent [] = fewer.foldl pushComponent [] := by
  have other : up ≠ here := by decide
  cases reduces with
  | stay front back => simp [pushComponent]
  | climb front back isName => simp [pushComponent, isName.notHere, isName.notUp, other]
  | root back => simp [pushComponent, other]

theorem reduces_foldl {place : Location} (isName : ∀ name ∈ place, IsName name)
    (split : ∀ name ∈ components, name ≠ [] ∧ slash ∉ name) :
    Relation.ReflTransGen Reduces (place.reverse ++ components)
      (components.foldl pushComponent place).reverse := by
  induction components generalizing place with
  | nil => simpa using .refl
  | cons name components induction =>
    rw [forall_mem_cons] at split
    have rest := induction (mem_pushComponent isName split.1.1 split.1.2) split.2
    rw [foldl_cons]
    by_cases isHere : name = here
    · subst isHere
      exact .head (.stay _ _) (by simpa [pushComponent] using rest)
    by_cases isUp : name = up
    · subst isUp
      cases place with
      | nil => exact .head (.root _) (by simpa [pushComponent, isHere] using rest)
      | cons last place =>
        refine .head ?_ rest
        simpa [pushComponent, isHere] using
          Reduces.climb place.reverse components (isName last (by simp))
    · simpa [pushComponent, isHere, isUp] using rest

theorem normalForm_iff {text : CString} :
    NormalForm (tokens text) names ↔ names = (guestPlace text).reverse := by
  constructor
  · rintro ⟨reduces, isName⟩
    have same : (tokens text).foldl pushComponent [] = names.foldl pushComponent [] := by
      clear isName
      induction reduces with
      | refl => rfl
      | tail _ step induction => exact induction.trans step.foldl_eq
    rw [guestPlace, same, ← reverse_reverse names,
      foldl_pushComponent_reverse (isName_reverse isName)]
  · rintro rfl
    exact ⟨reduces_foldl (forall_mem_nil _) fun _ => of_mem_tokens, isName_normalNames text⟩

theorem length_render (nonempty : ∀ name ∈ names, name ≠ []) :
    2 * names.length ≤ (render names).length := by
  induction names with
  | nil => exact Nat.le_refl _
  | cons name names induction =>
    rw [forall_mem_cons] at nonempty
    have first := length_pos_iff.mpr nonempty.1
    have others := induction nonempty.2
    rw [render_cons, length_cons, length_append, length_cons]
    omega

theorem length_foldl_pushComponent (components place : List CString) :
    (components.foldl pushComponent place).length ≤ place.length + components.length := by
  induction components generalizing place with
  | nil => exact Nat.le_refl _
  | cons name components induction =>
    have pushed : (pushComponent place name).length ≤ place.length + 1 := by
      unfold pushComponent
      split_ifs <;> grind
    have others := induction (pushComponent place name)
    rw [foldl_cons, length_cons]
    omega

/-- The laws of `vfs_normalize_path` for a path that fits from an absolute directory. -/
theorem normalizeInto_laws {cwd path : CString} (absolute : cwd.head? = some slash)
    (fits : (joinPath cwd path).length < pathMax) :
    ∃ names, (∀ other, NormalForm (tokens (joinPath cwd path)) other ↔ other = names) ∧
      let normal := if names = [] then [slash] else render names
      normal.length < pathMax ∧
      (∀ outsiz, normal.length < outsiz → normalizeInto cwd path outsiz = some normal ∧
        normalizeInto cwd normal outsiz = some normal) ∧
      (path ≠ [] → ∀ q : CString, q.head? ≠ some slash →
        (joinPath cwd (path ++ slash :: q)).length < pathMax → ∀ outsiz,
          normalizeInto normal q outsiz = normalizeInto cwd (path ++ slash :: q) outsiz) ∧
      ∀ front, front <+: tokens (joinPath cwd path) →
        (front.foldl pushComponent []).length ≤ pathMax / 2 := by
  have rooted : (joinPath cwd path).head? = some slash := head?_joinPath absolute
  have short := normalText_length_le rooted
  have placed := guestPlace_normalText (isName_guestPlace (joinPath cwd path))
  have normalPath : joinPath cwd (normalText (guestPlace (joinPath cwd path))) =
      normalText (guestPlace (joinPath cwd path)) := by
    obtain ⟨_, text⟩ := normalText_cons (guestPlace (joinPath cwd path))
    rw [text]
    rfl
  refine ⟨(guestPlace (joinPath cwd path)).reverse, fun _ => normalForm_iff, ?_⟩
  simp only [reverse_eq_nil_iff]
  rw [← normalText]
  refine ⟨Nat.lt_of_le_of_lt short fits, fun outsiz enough => ⟨?_, ?_⟩,
    fun nonempty q relative whole outsiz => ?_, fun front starts => ?_⟩
  · rw [normalizeInto_joinPath fits, if_neg (by omega), take_of_length_le (by omega)]
  · rw [normalizeInto_joinPath (by rw [normalPath]; omega), normalPath, if_neg (by omega), placed,
      take_of_length_le (by omega)]
  · have joined : joinPath cwd (path ++ slash :: q) = joinPath cwd path ++ slash :: q := by
      obtain ⟨char, rest, rfl⟩ := exists_cons_of_ne_nil nonempty
      by_cases rooted : char = slash <;> simp [joinPath, rooted]
    have below : joinPath (normalText (guestPlace (joinPath cwd path))) q =
        normalText (guestPlace (joinPath cwd path)) ++ slash :: q := if_neg relative
    rw [normalizeInto_joinPath whole, joined, guestPlace_append_slash, normalizeInto_joinPath,
      below, guestPlace_append_slash, placed]
    rw [joined, length_append] at whole
    rw [below, length_append]
    omega
  · have pushed := length_foldl_pushComponent front []
    have count := length_render fun name member =>
      (@of_mem_tokens (joinPath cwd path) name member).1
    have fewer := starts.length_le
    obtain ⟨rest, text⟩ := head?_eq_some_iff.mp rooted
    have bound := render_tokens_length rest
    rw [text, tokens_slash_cons] at count fewer
    rw [text, length_cons, pathMax] at fits
    rw [length_nil] at pushed
    rw [pathMax]
    omega

/-- From `/usr` the path `../etc/.` names `/etc`, which takes five bytes. -/
theorem normalizeInto_laws_etc :
    let cwd := CString.ofLiteral "/usr"
    let path := CString.ofLiteral "../etc/."
    cwd.head? = some slash ∧ (joinPath cwd path).length < pathMax ∧
      normalizeInto cwd path 5 = some (CString.ofLiteral "/etc") := by
  intro cwd path
  have fits : (joinPath cwd path).length < pathMax := by decide +kernel
  obtain ⟨_, unique, -, laws, -⟩ := @normalizeInto_laws cwd path rfl fits
  obtain rfl := (unique [CString.ofLiteral "etc"]).mp (normalForm_iff.mpr (by decide +kernel))
  exact ⟨rfl, fits, (laws 5 (by decide +kernel)).1⟩

end AlpineOnIOS.Vfs
