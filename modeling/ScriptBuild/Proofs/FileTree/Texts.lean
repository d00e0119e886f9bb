import ScriptBuild.Proofs.FileTree.Lasting

/-!
# The texts of a tree

What is written into a tree adds one text at most (`texts_place`), and making directories adds
none. The texts together are as long as the tree counts (`textSize_eq`).
-/

namespace ScriptBuild.FileTree

variable [WorkingDirectory]

variable {t t' : FileTree} {p : Path} {text s : String}

def texts (t : FileTree) : List String :=
  t.nodes.entries.filterMap fun e =>
    match e.2 with
    | .file (.text s) _ => some s
    | _ => none

theorem mem_texts : s ∈ t.texts ↔ ∃ k time, t.node? k = some (.file (.text s) time) := by
  rw [texts, List.mem_filterMap]
  constructor
  · rintro ⟨⟨place, n⟩, hentry, htext⟩
    refine ⟨place.key, ?_⟩
    have hnode : t.node? place.key = some n := by
      rw [node?, Place.of_key]
      exact (Registry.find?_eq_some_iff ..).mpr hentry
    cases n with
    | file data time =>
      cases data with
      | text s' =>
        obtain rfl : s' = s := by simpa using htext
        exact ⟨time, hnode⟩
      | raw bytes => simp at htext
    | directory time => simp at htext
    | link target => simp at htext
  · rintro ⟨k, time, hnode⟩
    exact ⟨_, (Registry.find?_eq_some_iff ..).mp hnode, rfl⟩

theorem textSize_eq (t : FileTree) : t.textSize = (t.texts.flatMap String.toList).length := by
  rw [textSize, texts]
  induction t.nodes.entries with
  | nil => rfl
  | cons e entries ih =>
    rw [List.map_cons, List.foldr_cons, ih, List.filterMap_cons]
    obtain ⟨place, n⟩ := e
    cases n with
    | file data time =>
      cases data with
      | text s => simp [String.length_toList]
      | raw bytes => simp
    | directory time => simp
    | link target => simp

theorem mem_texts_of_readText (h : t.readText p = .ok s) : s ∈ t.texts := by
  obtain ⟨time, hlookup⟩ := readText_eq_ok.mp h
  obtain ⟨k, -, hnode⟩ := lookup_eq_ok_iff.mp hlookup
  exact mem_texts.mpr ⟨k, time, hnode⟩

theorem Tidied.texts (h : Tidied t t') : t'.texts ⊆ t.texts := by
  intro s hs
  obtain ⟨k, time, hnode⟩ := mem_texts.mp hs
  exact mem_texts.mpr ⟨k, time, old_of_not_wrote (h.files k) hnode⟩

theorem texts_write {text : String} (h : t.write p text = .ok t') : t'.texts ⊆ text :: t.texts := by
  intro s hs
  obtain ⟨j, time, hnode⟩ := mem_texts.mp hs
  rw [List.mem_cons]
  unfold write at h
  split at h
  · cases h
  next k _ =>
    split at h
    · cases h
      rcases node?_addEntry_cases t k j (.file (.text text) t.now) with
        hsame | ⟨-, -, hnew⟩ | ⟨-, hdir⟩
      · exact .inr (mem_texts.mpr ⟨j, time, hsame ▸ hnode⟩)
      · rw [hnew] at hnode
        cases hnode
        exact .inl rfl
      · simp [hdir] at hnode
    next hold =>
      cases h
      rw [node?_replace (n := .file (.text text) t.now) hold rfl] at hnode
      split at hnode
      · cases hnode
        exact .inl rfl
      · exact .inr (mem_texts.mpr ⟨j, time, hnode⟩)
    · cases h

/-- Whether a text could be put into a file or not, no other text is new. -/
theorem texts_place (p : Path) (text : String) (t : FileTree) :
    (treeOf (place p text t)).texts ⊆ text :: t.texts := by
  have hopened := (tidied_opened p t).texts
  cases h : place p text t with
  | ok u t' =>
    obtain ⟨hwrite, -⟩ := place_eq_ok.mp h
    exact List.Subset.trans (texts_write hwrite) (List.cons_subset_cons _ hopened)
  | error error t' =>
    obtain rfl := opened_of_place_error h
    exact List.Subset.trans hopened (List.subset_cons_self _ _)

end ScriptBuild.FileTree
