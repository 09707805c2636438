/-
# Where a project is

The directory of a location is what is shown of a directory in slashes, without a slash at its end, and the
path of the descriptor is put behind it.  A slash at the end is that of the root, or one that stands for
a backslash at the end of the last name; so the location shows the parts of the directory without an
empty last one (`directory_ofDirectory`, `descriptorPath_eq`).
-/
import Tsconfig.Project.Basic
import Tsconfig.Proofs.Path.Pieces

namespace Tsconfig

/-! ## 1. A slash at the end -/

namespace WrittenPath

theorem dropSlash_concat (text : String) : dropSlash (text ++ "/") = text := by
  have hreverse : (text ++ "/").toList.reverse = '/' :: text.toList.reverse := by simp
  rw [dropSlash, hreverse]
  simp

theorem dropSlash_of_ne {text : String} (h : text.toList.getLast? ≠ some '/') :
    dropSlash text = text := by
  rw [dropSlash]
  split
  · next rest hreverse =>
    rw [List.getLast?_eq_head?_reverse, hreverse] at h
    exact absurd rfl h
  · rfl

end WrittenPath

namespace Path

section

variable {p : Path}

theorem written_child_of_ne_nil (h : p.rooted = true) (hne : p.names ≠ []) (name : WrittenPath) :
    (p.child name).written = p.written ++ "/" ++ name := by
  rw [written_child h, front, if_neg hne]

/-- A path ends in a slash only if its last name does or is empty. -/
theorem getLast?_written_ne (h : p.rooted = true) (hne : p.names ≠ [])
    (hempty : p.names.getLast hne ≠ "") (hslash : .char '/' ∉ (p.names.getLast hne).toList) :
    p.written.toList.getLast? ≠ some (.char '/') := by
  have hlist : (p.names.getLast hne).toList ≠ [] :=
    fun hnil => hempty (WrittenPath.toList_eq_nil_iff.mp hnil)
  have hwritten := written_child (p := p.parent) h (p.names.getLast hne)
  rw [parent_child hne] at hwritten
  rw [hwritten, WrittenPath.toList_append, List.getLast?_append,
    List.getLast?_eq_some_getLast hlist, Option.some_or]
  exact fun hend => hslash (Option.some.inj hend ▸ List.getLast_mem hlist)

variable {text : String} (hr : p.rooted = true) (hs : ∀ name ∈ p.names, .char '/' ∉ name.toList)
  (hone : p.names ≠ [.ofText ""]) (ht : p.written = text)
include hr hs hone ht

/-- Without a slash at its end a text shows no empty last name. -/
theorem dropSlash_eq (hne : p.names ≠ []) :
    p.dropEmpty.written = WrittenPath.dropSlash text ∧ p.dropEmpty.names ≠ [] := by
  have hchild := parent_child hne
  by_cases hlast : p.names.getLast hne = ""
  · have hparent : p.parent.names ≠ [] := by
      intro hnil
      have hnames := List.dropLast_concat_getLast hne
      have hfront : p.names.dropLast = [] := hnil
      rw [hfront, hlast] at hnames
      exact hone hnames.symm
    have hdrop : p.dropEmpty = p.parent := by
      rw [dropEmpty, if_pos (by rw [List.getLast?_eq_some_getLast hne, hlast])]
    have hwritten := written_child_of_ne_nil (p := p.parent) hr hparent (p.names.getLast hne)
    rw [hchild, hlast, WrittenPath.append_empty, ht] at hwritten
    have hfront : p.parent.written.IsText :=
      (WrittenPath.isText_append.mp (hwritten ▸ WrittenPath.isText_ofText text)).1
    have htext : text = p.parent.written.shown ++ "/" := by
      rw [← WrittenPath.shown_ofText text, hwritten, WrittenPath.shown_append, WrittenPath.shown_ofText]
    rw [hdrop, htext, WrittenPath.dropSlash_concat]
    exact ⟨hfront.symm, hparent⟩
  · have hdrop : p.dropEmpty = p := by
      rw [dropEmpty, if_neg]
      rw [List.getLast?_eq_some_getLast hne]
      simpa using hlast
    have hends := getLast?_written_ne hr hne hlast (hs _ (List.getLast_mem hne))
    have htext : text.toList.getLast? ≠ some '/' := by
      intro hend
      rw [ht, WrittenPath.toList_ofText, List.getLast?_map, hend] at hends
      exact hends rfl
    rw [hdrop, WrittenPath.dropSlash_of_ne htext]
    exact ⟨ht, hne⟩

/-- A name behind the text without its slash is a name behind the path. -/
theorem dropSlash_append (name : String) :
    (p.dropEmpty.child name).written = .ofText (WrittenPath.dropSlash text ++ "/" ++ name) := by
  by_cases hnil : p.names = []
  · obtain rfl : text = "/" := by
      rw [← WrittenPath.ofText_inj, ← ht, written, hr, hnil]
      rfl
    have hdrop : p.dropEmpty = p := by
      rw [dropEmpty, hnil]
      rfl
    have hslash : WrittenPath.dropSlash "/" = "" := by decide
    rw [hdrop, hslash, written_child hr, front, if_pos hnil, WrittenPath.ofText_append]
    rfl
  · obtain ⟨hwritten, hne⟩ := dropSlash_eq hr hs hone ht hnil
    have hrooted : p.dropEmpty.rooted = true := by
      unfold dropEmpty
      split <;> exact hr
    rw [written_child_of_ne_nil hrooted hne, hwritten, WrittenPath.ofText_append,
      WrittenPath.ofText_append]

end

end Path

/-! ## 2. The location -/

namespace LocatedProject

variable {dir : Path}

theorem directory_ofDirectory (h : dir.IsPlain) (hne : dir.names ≠ []) (project : Project) :
    dir.parts.dropEmpty.written = (ofDirectory dir project).directory := by
  have hr : dir.parts.rooted = true := h.rooted
  simp only [ofDirectory]
  exact (Path.dropSlash_eq hr (Path.not_mem_parts h.isName.not_mem) h.parts_ne dir.written_parts
    (Path.parts_ne_nil hne)).1

/-- **The descriptor of a project lies in its directory**, as far as slashes show. -/
theorem descriptorPath_eq (h : dir.IsPlain) (project : Project) :
    (dir.parts.dropEmpty.child Descriptor.fileName).written =
      (ofDirectory dir project).descriptorPath := by
  have hr : dir.parts.rooted = true := h.rooted
  simp only [ofDirectory]
  exact Path.dropSlash_append hr (Path.not_mem_parts h.isName.not_mem) h.parts_ne dir.written_parts _

end LocatedProject

end Tsconfig
