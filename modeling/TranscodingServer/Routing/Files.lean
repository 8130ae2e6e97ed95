import TranscodingServer.Routing.Lemmas.Static

/-!
# Which files can be served
-/

namespace TranscodingServer

/-- `sanitize_filename` gives clean names, and the clean names are what it leaves as it is. -/
theorem sanitize_filename_clean_iff (data : Str) :
    (CleanName (sanitize_filename data) ∧ (sanitize_filename data).length ≤ 255) ∧
      (sanitize_filename data = data ↔ CleanName data ∧ data.length ≤ 255) := by
  have hclean := cleanName_sanitize_filename data
  have hlen : (sanitize_filename data).length ≤ 255 :=
    (sanitizeLoop_length 0 true true (data.take 255)).trans (List.length_take_le 255 data)
  refine ⟨⟨hclean, hlen⟩, fun heq => ?_, fun h => sanitize_filename_eq_self h.1 h.2⟩
  rw [heq] at hclean hlen
  exact ⟨hclean, hlen⟩

-- A device counts with any ending, two dots anywhere in front of a separator, a dot and a colon.
example : sanitize_filename (str "../a/..\\Con.txt") = str "_/a/_\\_.txt" := by decide

end TranscodingServer
