import ScriptBuild.Text.Blank

/-!
# Cutting undoes joining

`pieces_joinWith`: texts joined by a separator that none of them holds are cut at
its first character into the same texts. Beside it stand the laws of scanning and
stripping that the readers of this library rest on.
-/

namespace ScriptBuild.Text

variable {sep : Char} {α : Type} {p : α → Bool}

-- ---------------------------------------------------------------------------
-- Scanning and stripping
-- ---------------------------------------------------------------------------

theorem takeWhile_append_cons {xs ys : List α} {y : α} (hx : ∀ x ∈ xs, p x = true)
    (hy : p y = false) : (xs ++ y :: ys).takeWhile p = xs := by
  rw [List.takeWhile_append_of_pos hx, List.takeWhile_cons_of_neg (by simp [hy]), List.append_nil]

theorem dropWhile_append_cons {xs ys : List α} {y : α} (hx : ∀ x ∈ xs, p x = true)
    (hy : p y = false) : (xs ++ y :: ys).dropWhile p = y :: ys := by
  rw [List.dropWhile_append_of_pos hx, List.dropWhile_cons_of_neg (by simp [hy])]

theorem dropWhile_eq_cons_iff {xs rest : List α} {y : α} :
    xs.dropWhile p = y :: rest ↔
      p y = false ∧ ∃ front, (∀ x ∈ front, p x = true) ∧ xs = front ++ y :: rest := by
  constructor
  · intro h
    have hstop := List.head?_dropWhile_not p xs
    rw [h] at hstop
    refine ⟨hstop, xs.takeWhile p, List.all_eq_true.mp List.all_takeWhile, ?_⟩
    rw [← h, List.takeWhile_append_dropWhile]
  · rintro ⟨hy, front, hfront, rfl⟩
    exact dropWhile_append_cons hfront hy

theorem takeWhile_append_of_exists {xs ys : List α} (h : ∃ x ∈ xs, p x = false) :
    (xs ++ ys).takeWhile p = xs.takeWhile p := by
  induction xs with
  | nil => simp at h
  | cons x xs ih =>
    rw [List.cons_append]
    cases hx : p x with
    | false => simp [hx]
    | true => simp [hx, ih (by simpa [hx] using h)]

theorem getElem?_takeWhile {xs : List α} {i : Nat} {x : α} :
    (xs.takeWhile p)[i]? = some x ↔ xs[i]? = some x ∧ ∀ y ∈ xs.take (i + 1), p y = true := by
  induction xs generalizing i with
  | nil => simp
  | cons y xs ih =>
    cases hy : p y with
    | false => simp [hy]
    | true =>
      rw [List.takeWhile_cons_of_pos hy]
      cases i with
      | zero => simp [hy]
      | succ i => simp [ih, hy]

theorem dropEndWhile_isPrefix (p : α → Bool) (xs : List α) : dropEndWhile p xs <+: xs := by
  rw [dropEndWhile, ← List.reverse_suffix, List.reverse_reverse]
  exact List.dropWhile_suffix p

theorem dropEndWhile_eq_append (p : α → Bool) (xs : List α) :
    ∃ back, xs = dropEndWhile p xs ++ back ∧ ∀ x ∈ back, p x = true := by
  refine ⟨(xs.reverse.takeWhile p).reverse, ?_, fun x hx => ?_⟩
  · rw [dropEndWhile, ← List.reverse_append, List.takeWhile_append_dropWhile, List.reverse_reverse]
  · exact List.all_eq_true.mp List.all_takeWhile x (List.mem_reverse.mp hx)

theorem not_of_dropEndWhile {xs front : List α} {x : α} (h : dropEndWhile p xs = front ++ [x]) :
    p x = false := by
  have hhead : (xs.reverse.dropWhile p).head? = some x := by
    rw [← List.getLast?_reverse, ← dropEndWhile, h, List.getLast?_concat]
  have hnot := List.head?_dropWhile_not p xs.reverse
  rwa [hhead] at hnot

theorem stripBy_of_ends {xs : List α} {x y : α} (hx : xs.head? = some x) (hpx : p x = false)
    (hy : xs.getLast? = some y) (hpy : p y = false) : stripBy p xs = xs := by
  have hfront : xs.dropWhile p = xs := by
    obtain ⟨rest, rfl⟩ := List.head?_eq_some_iff.mp hx
    exact List.dropWhile_cons_of_neg (by simp [hpx])
  have hback : xs.reverse.dropWhile p = xs.reverse := by
    rw [← List.head?_reverse] at hy
    obtain ⟨rest, hr⟩ := List.head?_eq_some_iff.mp hy
    rw [hr]
    exact List.dropWhile_cons_of_neg (by simp [hpy])
  rw [stripBy, hfront, dropEndWhile, hback, List.reverse_reverse]

theorem dropWhile_of_forall {xs : List α} (h : ∀ x ∈ xs, p x = false) : xs.dropWhile p = xs := by
  cases xs with
  | nil => rfl
  | cons x xs => exact List.dropWhile_cons_of_neg (by simp [h x])

theorem stripBy_wrapped {xs : List α} {x y : α} (hx : p x = true) (hy : p y = true)
    (hxs : ∀ z ∈ xs, p z = false) : stripBy p (x :: (xs ++ [y])) = xs := by
  have hback : dropEndWhile p (xs ++ [y]) = xs := by
    rw [dropEndWhile, List.reverse_append, List.reverse_singleton, List.singleton_append,
      List.dropWhile_cons_of_pos hy, dropWhile_of_forall (by simpa using hxs), List.reverse_reverse]
  rw [stripBy, List.dropWhile_cons_of_pos hx]
  cases xs with
  | nil => simp [dropEndWhile, hy]
  | cons z zs =>
    rw [List.cons_append, List.dropWhile_cons_of_neg (by simp [hxs z]), ← List.cons_append, hback]

theorem stripBy_eq_append (p : α → Bool) (xs : List α) :
    ∃ front back, (∀ x ∈ front, p x = true) ∧ (∀ x ∈ back, p x = true) ∧
      xs = front ++ stripBy p xs ++ back := by
  obtain ⟨back, hback, hdropped⟩ := dropEndWhile_eq_append p (xs.dropWhile p)
  refine ⟨xs.takeWhile p, back, List.all_eq_true.mp List.all_takeWhile, hdropped, ?_⟩
  rw [List.append_assoc, stripBy, ← hback, List.takeWhile_append_dropWhile]

theorem dropEndWhile_append {xs back : List α} (h : ∀ x ∈ back, p x = true) :
    dropEndWhile p (xs ++ back) = dropEndWhile p xs := by
  rw [dropEndWhile, List.reverse_append, List.dropWhile_append_of_pos (by simpa using h),
    dropEndWhile]

theorem stripBy_append {xs front back : List α} {x y : α} (hx : xs.head? = some x)
    (hpx : p x = false) (hy : xs.getLast? = some y) (hpy : p y = false)
    (hfront : ∀ x ∈ front, p x = true) (hback : ∀ x ∈ back, p x = true) :
    stripBy p (front ++ xs ++ back) = xs := by
  have hkept : (xs ++ back).dropWhile p = xs ++ back := by
    obtain ⟨rest, rfl⟩ := List.head?_eq_some_iff.mp hx
    exact List.dropWhile_cons_of_neg (by simp [hpx])
  have hstripped := stripBy_of_ends hx hpx hy hpy
  have hfirst : xs.dropWhile p = xs := by
    obtain ⟨rest, rfl⟩ := List.head?_eq_some_iff.mp hx
    exact List.dropWhile_cons_of_neg (by simp [hpx])
  rw [stripBy, hfirst] at hstripped
  rw [stripBy, List.append_assoc, List.dropWhile_append_of_pos hfront, hkept,
    dropEndWhile_append hback, hstripped]

theorem stripBy_of_forall {xs : List α} (h : ∀ x ∈ xs, p x = true) : stripBy p xs = [] := by
  have hdrop : (xs ++ []).dropWhile p = [].dropWhile p := List.dropWhile_append_of_pos h
  rw [List.append_nil] at hdrop
  rw [stripBy, hdrop]
  rfl

/-- `core` is what is left of `xs` without all that satisfies `p` at both ends. -/
structure Stripped (p : α → Bool) (xs core : List α) : Prop where
  around : ∃ front back, (∀ x ∈ front, p x = true) ∧ (∀ x ∈ back, p x = true) ∧
    xs = front ++ core ++ back
  head : ∀ x ∈ core.head?, p x = false
  last : ∀ x ∈ core.getLast?, p x = false

theorem stripped_stripBy (p : α → Bool) (xs : List α) : Stripped p xs (stripBy p xs) where
  around := stripBy_eq_append p xs
  head x hx := by
    obtain ⟨back, hback, -⟩ := dropEndWhile_eq_append p (xs.dropWhile p)
    have hhead : (xs.dropWhile p).head? = some x := by
      rw [hback, ← stripBy, List.head?_append, hx, Option.some_or]
    have hnot := List.head?_dropWhile_not p xs
    rwa [hhead] at hnot
  last x hx := by
    obtain ⟨front, hfront⟩ := List.getLast?_eq_some_iff.mp hx
    exact not_of_dropEndWhile hfront

theorem stripBy_eq_iff {xs core : List α} : stripBy p xs = core ↔ Stripped p xs core := by
  constructor
  · rintro rfl
    exact stripped_stripBy p xs
  · rintro ⟨⟨front, back, hfront, hback, rfl⟩, hhead, hlast⟩
    by_cases hcore : core = []
    · subst hcore
      have hall : ∀ x ∈ front ++ back, p x = true := by
        simpa [or_imp, forall_and] using ⟨hfront, hback⟩
      rw [List.append_nil]
      exact stripBy_of_forall hall
    · have hx := List.head?_eq_some_head hcore
      have hy := List.getLast?_eq_some_getLast hcore
      exact stripBy_append hx (hhead _ hx) hy (hlast _ hy) hfront hback

-- ---------------------------------------------------------------------------
-- Pieces
-- ---------------------------------------------------------------------------

theorem pieces_append_of_notMem {cs rest piece : List Char} {ps : List (List Char)}
    (h : sep ∉ cs) (hr : pieces sep rest = piece :: ps) :
    pieces sep (cs ++ rest) = (cs ++ piece) :: ps := by
  induction cs with
  | nil => exact hr
  | cons c cs ih =>
    rw [List.mem_cons, not_or] at h
    have hc := ih h.2
    simp only [pieces] at hc
    simp [pieces, Ne.symm h.1, hc]

theorem pieces_of_notMem {cs : List Char} (h : sep ∉ cs) : pieces sep cs = [cs] := by
  simpa using pieces_append_of_notMem h (pieces_nil sep)

theorem pieces_append_sep {cs : List Char} (h : sep ∉ cs) (rest : List Char) :
    pieces sep (cs ++ sep :: rest) = cs :: pieces sep rest := by
  simpa using pieces_append_of_notMem h (pieces_cons_sep sep rest)

theorem pieces_append_cons (cs rest : List Char) :
    pieces sep (cs ++ sep :: rest) = pieces sep cs ++ pieces sep rest := by
  induction cs with
  | nil => rw [List.nil_append, pieces_cons_sep, pieces_nil, List.singleton_append]
  | cons c cs ih =>
    simp only [pieces, List.cons_append, List.foldr_cons] at ih ⊢
    rw [ih]
    split
    · rfl
    · cases hp : List.foldr _ [[]] cs with
      | nil => exact absurd hp (pieces_ne_nil sep cs)
      | cons p ps => rfl

theorem pieces_cons_of_ne {c : Char} (hc : c ≠ sep) (cs : List Char) :
    ∃ piece rest, pieces sep cs = piece :: rest ∧
      pieces sep (c :: cs) = (c :: piece) :: rest := by
  obtain ⟨piece, rest, hp⟩ := List.exists_cons_of_ne_nil (pieces_ne_nil sep cs)
  refine ⟨piece, rest, hp, ?_⟩
  simp only [pieces] at hp
  simp [pieces, hc, hp]

theorem pieces_map {f : Char → Char} (h : ∀ c, f c = sep ↔ c = sep) (cs : List Char) :
    pieces sep (cs.map f) = (pieces sep cs).map (List.map f) := by
  induction cs with
  | nil => rfl
  | cons c cs ih =>
    rw [List.map_cons]
    by_cases hc : c = sep
    · rw [(h c).mpr hc, hc, pieces_cons_sep, pieces_cons_sep, List.map_cons, ih]
      rfl
    · obtain ⟨piece, rest, hp, hcons⟩ := pieces_cons_of_ne hc cs
      obtain ⟨piece', rest', hp', hcons'⟩ := pieces_cons_of_ne (mt (h c).mp hc) (cs.map f)
      rw [ih, hp, List.map_cons, List.cons.injEq] at hp'
      rw [hcons', hcons, ← hp'.1, ← hp'.2]
      rfl

theorem length_flatten_pieces_le (sep : Char) (cs : List Char) :
    (pieces sep cs).flatten.length ≤ cs.length := by
  induction cs with
  | nil => simp [pieces_nil]
  | cons c cs ih =>
    by_cases hc : c = sep
    · subst hc
      rw [pieces_cons_sep, List.flatten_cons, List.nil_append, List.length_cons]
      omega
    · obtain ⟨piece, rest, hcs, hcons⟩ := pieces_cons_of_ne hc cs
      rw [hcs] at ih
      rw [hcons, List.flatten_cons, List.cons_append, ← List.flatten_cons, List.length_cons,
        List.length_cons]
      omega

theorem length_filterMap_le {f : List Char → Option α} (h : f [] = none)
    (parts : List (List Char)) : (parts.filterMap f).length ≤ parts.flatten.length := by
  induction parts with
  | nil => simp
  | cons part parts ih =>
    rw [List.filterMap_cons, List.flatten_cons, List.length_append]
    cases hf : f part with
    | none => exact Nat.le_trans ih (Nat.le_add_left _ _)
    | some a =>
      have hpos : 0 < part.length := by
        rw [List.length_pos_iff]
        rintro rfl
        simp [h] at hf
      rw [List.length_cons]
      omega

theorem eq_flatMap_of_pieces {cs last : List Char} {parts : List (List Char)}
    (h : pieces sep cs = parts ++ [last]) : cs = parts.flatMap (· ++ [sep]) ++ last := by
  induction cs generalizing parts last with
  | nil =>
    rw [pieces_nil, eq_comm, List.append_eq_singleton_iff] at h
    rcases h with ⟨rfl, hlast⟩ | ⟨-, hlast⟩
    · simpa using hlast.symm
    · simp at hlast
  | cons c cs ih =>
    by_cases hc : c = sep
    · subst hc
      rw [pieces_cons_sep, List.cons_eq_append_iff] at h
      rcases h with ⟨-, hlast⟩ | ⟨parts, rfl, hrest⟩
      · simp [pieces_ne_nil] at hlast
      · simp [← ih hrest]
    · obtain ⟨piece, rest, hcs, hcons⟩ := pieces_cons_of_ne hc cs
      rw [hcons, List.cons_eq_append_iff] at h
      rcases h with ⟨rfl, hlast⟩ | ⟨parts, rfl, hrest⟩
      · obtain ⟨rfl, rfl⟩ : last = c :: piece ∧ rest = [] := by simpa using hlast
        have hlast : pieces sep cs = [] ++ [piece] := hcs
        simpa using ih hlast
      · rw [hrest] at hcs
        have hmore : pieces sep cs = (piece :: parts) ++ [last] := hcs
        simpa using ih hmore

theorem pieces_flatMap {last : List Char} {parts : List (List Char)}
    (hparts : ∀ part ∈ parts, sep ∉ part) (hlast : sep ∉ last) :
    pieces sep (parts.flatMap (· ++ [sep]) ++ last) = parts ++ [last] := by
  induction parts with
  | nil => exact pieces_of_notMem hlast
  | cons part parts ih =>
    rw [List.forall_mem_cons] at hparts
    have hcons : (part :: parts).flatMap (· ++ [sep]) ++ last =
        part ++ sep :: (parts.flatMap (· ++ [sep]) ++ last) := by simp
    rw [hcons, pieces_append_sep hparts.1, ih hparts.2, List.cons_append]

theorem notMem_of_mem_pieces {cs piece : List Char} (h : piece ∈ pieces sep cs) : sep ∉ piece := by
  induction cs generalizing piece with
  | nil =>
    rw [pieces_nil, List.mem_singleton] at h
    simp [h]
  | cons c cs ih =>
    simp only [pieces, List.foldr_cons] at h ih
    split at h
    · rcases List.mem_cons.mp h with rfl | h
      · simp
      · exact ih h
    next hc =>
      split at h
      next hnil => exact absurd hnil (pieces_ne_nil sep cs)
      next p ps hp =>
        rw [hp] at ih
        rcases List.mem_cons.mp h with rfl | h
        · rw [List.mem_cons, not_or]
          exact ⟨Ne.symm hc, ih List.mem_cons_self⟩
        · exact ih (List.mem_cons_of_mem _ h)

theorem mem_of_mem_pieces {c : Char} {cs piece : List Char} (h : piece ∈ pieces sep cs)
    (hc : c ∈ piece) : c ∈ cs := by
  induction cs generalizing piece with
  | nil =>
    rw [pieces_nil, List.mem_singleton] at h
    simp [h] at hc
  | cons d cs ih =>
    simp only [pieces, List.foldr_cons] at h ih
    split at h
    · rcases List.mem_cons.mp h with rfl | h
      · simp at hc
      · exact List.mem_cons_of_mem _ (ih h hc)
    · split at h
      next hnil => exact absurd hnil (pieces_ne_nil sep cs)
      next p ps hp =>
        rw [hp] at ih
        rcases List.mem_cons.mp h with rfl | h
        · rcases List.mem_cons.mp hc with rfl | hc
          · exact List.mem_cons_self
          · exact List.mem_cons_of_mem _ (ih List.mem_cons_self hc)
        · exact List.mem_cons_of_mem _ (ih (List.mem_cons_of_mem _ h) hc)

-- ---------------------------------------------------------------------------
-- Joining
-- ---------------------------------------------------------------------------

theorem joinWith_cons_cons (gap s t : String) (rest : List String) :
    joinWith gap (s :: t :: rest) = s ++ gap ++ joinWith gap (t :: rest) := rfl

theorem pieces_joinWith {gap : List Char} {texts : List String} {first : String}
    (hgap : sep ∉ gap) (h : ∀ s ∈ first :: texts, sep ∉ s.toList) :
    pieces sep (joinWith (String.ofList (sep :: gap)) (first :: texts)).toList =
      first.toList :: texts.map (gap ++ ·.toList) := by
  induction texts generalizing first with
  | nil => simpa [joinWith] using pieces_of_notMem (h first (by simp))
  | cons s texts ih =>
    have hs := @ih s fun t ht => h t (List.mem_cons_of_mem _ ht)
    rw [joinWith_cons_cons, String.toList_append, String.toList_append, String.toList_ofList,
      List.append_assoc, List.cons_append, pieces_append_sep (h first (by simp)),
      pieces_append_of_notMem hgap hs, List.map_cons]

-- ---------------------------------------------------------------------------
-- Texts
-- ---------------------------------------------------------------------------

theorem split_ne_nil (sep : Char) (s : String) : split sep s ≠ [] := by
  simp [split, pieces_ne_nil]

theorem notMem_of_mem_split {s piece : String} (h : piece ∈ split sep s) : sep ∉ piece.toList := by
  obtain ⟨cs, hcs, rfl⟩ := List.mem_map.mp h
  rw [String.toList_ofList]
  exact notMem_of_mem_pieces hcs

theorem mem_of_mem_split {sep c : Char} {s piece : String} (h : piece ∈ split sep s)
    (hc : c ∈ piece.toList) : c ∈ s.toList := by
  obtain ⟨cs, hcs, rfl⟩ := List.mem_map.mp h
  rw [String.toList_ofList] at hc
  exact mem_of_mem_pieces hcs hc

theorem split_append_slash (s t : String) :
    split '/' (s ++ "/" ++ t) = split '/' s ++ split '/' t := by
  rw [split, split, split, ← List.map_append, ← pieces_append_cons]
  simp

theorem split_joinWith {texts : List String} (hne : texts ≠ [])
    (h : ∀ s ∈ texts, '/' ∉ s.toList) : split '/' (joinWith "/" texts) = texts := by
  cases texts with
  | nil => exact absurd rfl hne
  | cons first texts =>
    have := pieces_joinWith (by simp : '/' ∉ []) h
    rw [split, show ("/" : String) = String.ofList ['/'] from rfl, this]
    simp [Function.comp_def]

theorem joinWith_cons (gap s : String) {texts : List String} (h : texts ≠ []) :
    joinWith gap (s :: texts) = s ++ gap ++ joinWith gap texts := by
  cases texts with
  | nil => exact absurd rfl h
  | cons t rest => rfl

theorem joinWith_append (gap : String) {front back : List String} (hfront : front ≠ [])
    (hback : back ≠ []) :
    joinWith gap (front ++ back) = joinWith gap front ++ gap ++ joinWith gap back := by
  induction front with
  | nil => exact absurd rfl hfront
  | cons s front ih =>
    rw [List.cons_append, joinWith_cons gap s (by simp [hback])]
    by_cases hne : front = []
    · rw [hne, List.nil_append]
      rfl
    · rw [ih hne, joinWith_cons gap s hne]
      simp only [String.append_assoc]

theorem joinWith_split (s : String) : joinWith "/" (split '/' s) = s := by
  have hpieces : ∀ cs, joinWith "/" ((pieces '/' cs).map String.ofList) = String.ofList cs := by
    intro cs
    induction cs with
    | nil => rfl
    | cons c cs ih =>
      have hne : (pieces '/' cs).map String.ofList ≠ [] := by simpa using pieces_ne_nil '/' cs
      by_cases hc : c = '/'
      · subst hc
        rw [pieces_cons_sep, List.map_cons, joinWith_cons _ _ hne, ih, ← String.toList_inj]
        simp
      · obtain ⟨piece, rest, hp, hcons⟩ := pieces_cons_of_ne hc cs
        rw [hp] at ih
        rw [hcons]
        have hlist := congrArg String.toList ih
        rw [← String.toList_inj]
        cases rest with
        | nil => simpa [joinWith] using hlist
        | cons piece' rest =>
          simp only [List.map_cons, joinWith_cons_cons, String.toList_append,
            String.toList_ofList, List.cons_append] at hlist ⊢
          rw [hlist]
  rw [split, hpieces, String.ofList_toList]

end ScriptBuild.Text
