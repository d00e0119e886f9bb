import ScriptBuild.Proofs.OnDemand.Requests

/-!
# What is compiled on demand is complete

`dependencies_before`: where each artifact that was delivered provides the namespace
that it was delivered for, a language-level namespace that one of them requires is
provided by that one or by one before it. `dependencies_of_requested` says that what
was asked for is provided.
-/

namespace ScriptBuild

open Loadable (keys distinct)

/-- Each artifact provides the namespace that it was delivered for, and no namespace
is spelled like the place of an artifact. -/
structure Faithful (got : List (String × Artifact)) : Prop where
  provides : ∀ e ∈ got, e.1 ∈ e.2.provides
  location : ∀ d ∈ got, ∀ e ∈ got, ∀ l ∈ e.2.location, l.display ∉ d.2.provides

namespace OnDemand

theorem mem_languageNames :
    ns ∈ languageNames o names ↔ ns ∈ names ∧ o.isLanguageNamespace ns = true := by
  simp [languageNames]

theorem claimed_of_delivered (hf : Faithful got) (hns : ns ∈ got.map (·.1)) :
    ∃ b ∈ distinct (got.map (·.2)), ns ∈ b.provides := by
  obtain ⟨e, he, rfl⟩ := List.mem_map.mp hns
  have hmem : e.2 ∈ got.map (·.2) := List.mem_map_of_mem he
  obtain ⟨b, hb, hsame⟩ := same_of_mem_distinct (Artifact.same_refl e.2) hmem
  exact ⟨b, hb, Artifact.provides_of_same hsame ▸ hf.provides e he⟩

theorem mem_provides_of_claimed (hf : Faithful got) (hns : ns ∈ got.map (·.1))
    (hc : c ∈ distinct (got.map (·.2))) (hk : ns ∈ keys c) : ns ∈ c.provides := by
  obtain ⟨d, hd, rfl⟩ := List.mem_map.mp (mem_of_mem_distinct hc)
  obtain ⟨e, he, rfl⟩ := List.mem_map.mp hns
  rcases List.mem_append.mp hk with h | h
  · exact h
  · rw [Option.mem_toList, Loadable.fileKey] at h
    obtain ⟨l, hl, hdisplay⟩ := Option.map_eq_some_iff.mp h
    exact absurd (hdisplay ▸ hf.provides e he) (hf.location e he d hd l hl)

variable [WorkingDirectory]

variable {compiler : Compiler} {o : Options} {language : List Artifact} {names : List String}

theorem Requests.mem_delivered (h : Requests compiler o w got w') (he : e ∈ got) :
    e ∈ delivered w w' := by
  rwa [h.delivered_eq]

theorem Requests.faithful (h : Requests compiler o w got w') (hf : Faithful (delivered w w')) :
    Faithful got where
  provides e he := hf.provides e (h.mem_delivered he)
  location d hd e he := hf.location d (h.mem_delivered hd) e (h.mem_delivered he)

theorem dependencies_ok (h : dependencies compiler o names w = .ok language w') :
    ∃ got, Requests compiler o w got w' ∧ loadOrder (got.map (·.2)) = .ok language ∧
      (∀ ns ∈ names, o.isLanguageNamespace ns = true → ns ∈ got.map (·.1)) ∧
      ∀ e ∈ got, ∀ r ∈ e.2.requires, o.isLanguageNamespace r = true → r ∈ got.map (·.1) := by
  obtain ⟨got, hgets, horder⟩ := dependencies_run h
  refine ⟨got, hgets.requests, horder, fun ns hn hl => ?_, fun e he r hr hl => ?_⟩
  · exact hgets.requested (mem_languageNames.mpr ⟨hn, hl⟩)
  · simpa using hgets.closed he hr hl

theorem dependencies_before (h : dependencies compiler o names w = .ok language w')
    (hf : Faithful (delivered w w')) (hsplit : language = before ++ a :: after)
    (hr : r ∈ a.requires) (hl : o.isLanguageNamespace r = true) :
    r ∈ a.provides ∨ ∃ b ∈ before, r ∈ b.provides := by
  obtain ⟨got, hrun, horder, -, hclosed⟩ := dependencies_ok h
  have hgot := hrun.faithful hf
  have ha : a ∈ distinct (got.map (·.2)) := (loadOrder_perm horder).mem_iff.mp (by simp [hsplit])
  obtain ⟨e, he, rfl⟩ := List.mem_map.mp (mem_of_mem_distinct ha)
  have hns := hclosed e he r hr hl
  obtain ⟨b, hb, hname⟩ := claimed_of_delivered hgot hns
  obtain ⟨c, hc, hkey, hplace⟩ := loadOrder_before horder hsplit hr
    ⟨b, hb, List.mem_append_left _ hname⟩
  have hprovides := mem_provides_of_claimed hgot hns hc hkey
  rcases hplace with rfl | hplace
  · exact .inl hprovides
  · exact .inr ⟨c, hplace, hprovides⟩

theorem dependencies_of_requested (h : dependencies compiler o names w = .ok language w')
    (hf : Faithful (delivered w w')) (hr : r ∈ names) (hl : o.isLanguageNamespace r = true) :
    ∃ b ∈ language, r ∈ b.provides := by
  obtain ⟨got, hrun, horder, hnames, -⟩ := dependencies_ok h
  have hgot := hrun.faithful hf
  obtain ⟨b, hb, hname⟩ := claimed_of_delivered hgot (hnames r hr hl)
  exact ⟨b, (loadOrder_perm horder).mem_iff.mpr hb, hname⟩

end OnDemand

end ScriptBuild
