import TranscodingServer.Core.Lemmas.Tables

/-!
# The tokens of a launch description

A description is split at whitespace, or at the whitespace outside of quotation.  The url stands in
it as it came; what it may hold without changing the other tokens is `PlainUri`.
-/

namespace TranscodingServer

open Text

variable {uri : Str} {p : Profile}

/-! ## Splitting -/

def isspace (c : UInt8) : Bool := c == 32 || (9 ≤ c && c ≤ 13)

/-- The open quote, single or double, and whether a backslash came just before. -/
structure Quotation where
  quote : Option UInt8 := none
  escaped : Bool := false
  deriving DecidableEq

def Quotation.next (q : Quotation) (c : UInt8) : Quotation :=
  if q.escaped then { q with escaped := false }
  else if c == 92 then { q with escaped := true }
  else
    match q.quote with
    | none => if c == 34 || c == 39 then { q with quote := some c } else q
    | some d => if c == d then { q with quote := none } else q

/-- The maximal runs without whitespace. -/
def words (text : Str) : List Str :=
  pieces (fun _ _ => ()) (fun _ => true) isspace () [] text

/-- The runs between unquoted whitespace. -/
def tokens (text : Str) : List Str :=
  pieces Quotation.next (· == {}) isspace {} [] text

def Profile.elements : Profile → List Str
  | .first => ["latency=0", "!", "rtph264depay", "!", "rtph264pay", "name=pay0", "pt=96", ")"].map str
  | .second => [
      "latency=0", "!", "rtph264depay", "!", "h264parse", "!", "nvh264dec", "!", "queue", "!",
      "videoscale", "!", "queue", "!", "videorate", "!",
      "video/x-raw,framerate=15/1,width=1280,height=960", "!", "queue", "!", "x264enc",
      "bitrate=2000", "speed-preset=ultrafast", "tune=zerolatency", "!", "rtph264pay",
      "config-interval=1", "name=pay0", "pt=96", ")"].map str
  | .third => [
      "latency=0", "!", "rtph264depay", "!", "h264parse", "!", "nvh264dec", "!", "queue", "!",
      "videoscale", "!", "queue", "!", "videorate", "!",
      "video/x-raw,framerate=10/1,width=640,height=480", "!", "queue", "!", "x264enc",
      "bitrate=800", "speed-preset=ultrafast", "tune=zerolatency", "!", "rtph264pay",
      "config-interval=1", "name=pay0", "pt=96", ")"].map str
  | .fourth => [
      "latency=0", "!", "rtph264depay", "!", "h264parse", "!", "nvh264dec", "!", "queue", "!",
      "videoscale", "!", "queue", "!", "videorate", "!",
      "video/x-raw,framerate=10/1,width=320,height=240", "!", "queue", "!", "x264enc",
      "bitrate=400", "speed-preset=ultrafast", "tune=zerolatency", "!", "rtph264pay",
      "config-interval=1", "name=pay0", "pt=96", ")"].map str

def Profile.tokens (p : Profile) (uri : Str) : List Str :=
  [str "(", str "rtspsrc", str "location=" ++ uri] ++ p.elements

/-! ## The fixed parts -/

theorem words_pipeline (p : Profile) : words p.pipeline = p.elements := by
  cases p <;> decide +kernel

theorem tokens_pipeline (p : Profile) : tokens p.pipeline = p.elements := by
  cases p <;> decide +kernel

theorem pipeline_cons (p : Profile) : ∃ rest, p.pipeline = 32 :: rest := by
  cases p <;> exact ⟨_, rfl⟩

theorem pipeline_no_nul (p : Profile) : 0 ∉ p.pipeline := by
  cases p <;> decide +kernel

theorem words_location (w : Str) :
    words (str "( rtspsrc location=" ++ w) = str "(" :: str "rtspsrc" ::
      pieces (fun _ _ => ()) (fun _ => true) isspace () (str "location=") w := rfl

theorem tokens_location (w : Str) :
    tokens (str "( rtspsrc location=" ++ w) = str "(" :: str "rtspsrc" ::
      pieces Quotation.next (· == {}) isspace {} (str "location=") w := rfl

theorem location_ne_nil (w : Str) : str "location=" ++ w ≠ [] :=
  List.append_ne_nil_of_left_ne_nil (by decide) w

/-! ## Urls that stay one token -/

/-- No NUL byte, no whitespace, and every quotation closed at the end. -/
structure PlainUri (uri : Str) : Prop where
  no_nul : 0 ∉ uri
  no_space : ∀ c ∈ uri, isspace c = false
  closed : uri.foldl Quotation.next {} = {}

theorem c_str_launchDescription (h : 0 ∉ uri) (p : Profile) :
    c_str (launchDescription p uri) = launchDescription p uri := by
  have hloc : (0 : UInt8) ∉ str "( rtspsrc location=" := by decide
  refine c_str_of_no_nul ?_
  simp [launchDescription, hloc, h, pipeline_no_nul]

theorem PlainUri.words_launch (h : PlainUri uri) (p : Profile) :
    words (c_str (launchDescription p uri)) = p.tokens uri := by
  obtain ⟨rest, hrest⟩ := pipeline_cons p
  have hpipeline := words_pipeline p
  rw [hrest] at hpipeline
  rw [c_str_launchDescription h.no_nul, launchDescription, List.append_assoc, words_location,
    pieces_append _ h.no_space, hrest, pieces_sep _ rfl rfl (location_ne_nil uri)]
  rw [Profile.tokens, ← hpipeline]
  rfl

theorem PlainUri.tokens_launch (h : PlainUri uri) (p : Profile) :
    tokens (c_str (launchDescription p uri)) = p.tokens uri := by
  obtain ⟨rest, hrest⟩ := pipeline_cons p
  have hpipeline := tokens_pipeline p
  rw [hrest] at hpipeline
  rw [c_str_launchDescription h.no_nul, launchDescription, List.append_assoc, tokens_location,
    pieces_append _ h.no_space, h.closed, hrest, pieces_sep _ rfl rfl (location_ne_nil uri)]
  rw [Profile.tokens, ← hpipeline]
  rfl

/-- The third word shows that the url has no NUL byte and no whitespace. -/
theorem no_nul_no_space_of_words (h : words (c_str (launchDescription p uri)) = p.tokens uri) :
    0 ∉ uri ∧ ∀ c ∈ uri, isspace c = false := by
  have hloc : c_str (launchDescription p uri) =
      str "( rtspsrc location=" ++ c_str (uri ++ p.pipeline) := by
    rw [launchDescription, List.append_assoc]
    rfl
  obtain ⟨rest, hthird⟩ := @pieces_takeWhile UInt8 Unit (fun _ _ => ()) isspace ()
    (str "location=") (c_str (uri ++ p.pipeline)) (by decide)
  rw [hloc, words_location, hthird, Profile.tokens] at h
  have huri : (c_str (uri ++ p.pipeline)).takeWhile (!isspace ·) = uri := by
    simpa using (List.cons.inj (List.cons.inj (List.cons.inj h).2).2).1
  refine ⟨fun h0 => ?_, fun c hc => ?_⟩
  · rw [← huri] at h0
    exact c_str_no_nul _ ((List.takeWhile_prefix _).mem h0)
  · rw [← huri] at hc
    simpa using List.mem_takeWhile_imp hc

/-- The third token shows that the url closes its quotations. -/
theorem closed_of_tokens (h0 : 0 ∉ uri) (hspace : ∀ c ∈ uri, isspace c = false)
    (h : tokens (c_str (launchDescription p uri)) = p.tokens uri) :
    uri.foldl Quotation.next {} = {} := by
  obtain ⟨rest, hrest⟩ := pipeline_cons p
  by_contra hopen
  have hplain : (uri.foldl Quotation.next {} == {}) = false := by simpa using hopen
  rw [c_str_launchDescription h0, launchDescription, List.append_assoc, tokens_location,
    pieces_append _ hspace, hrest] at h
  simp only [pieces, hplain, Bool.false_and, Bool.false_eq_true, ↓reduceIte] at h
  obtain ⟨more, tail, hthird⟩ := @pieces_head UInt8 Quotation Quotation.next (· == {}) isspace
    (Quotation.next (uri.foldl Quotation.next {}) 32) (str "location=" ++ uri ++ [32]) rest
    (by simp)
  rw [hthird, Profile.tokens] at h
  have hlen := congrArg List.length (List.cons.inj (List.cons.inj (List.cons.inj h).2).2).1
  simp at hlen

theorem plainUri_iff :
    (words (c_str (launchDescription p uri)) = p.tokens uri ∧
      tokens (c_str (launchDescription p uri)) = p.tokens uri) ↔ PlainUri uri := by
  constructor
  · rintro ⟨hwords, htokens⟩
    obtain ⟨h0, hspace⟩ := no_nul_no_space_of_words hwords
    exact ⟨h0, hspace, closed_of_tokens h0 hspace htokens⟩
  · exact fun h => ⟨h.words_launch p, h.tokens_launch p⟩

/-! ## The pictures of a profile -/

/-- The size of the pictures of a profile; the first profile relays its source. -/
def Profile.videoSize : Profile → Option Str
  | .first => none
  | .second => some (str "width=1280,height=960")
  | .third => some (str "width=640,height=480")
  | .fourth => some (str "width=320,height=240")

/-- The launch description reads the stream of `uri`, and encodes it in the size of the profile or
relays it. -/
def Transcodes (p : Profile) (uri launch : Str) : Prop :=
  ∃ rest, launch = str "( rtspsrc location=" ++ uri ++ rest ∧
    (∀ size ∈ p.videoSize, size <:+: rest ∧ str "! x264enc " <:+: rest) ∧
    (p.videoSize = none →
      str "! rtph264depay ! rtph264pay " <:+: rest ∧ ¬str "x264enc" <:+: rest)

theorem pipeline_videoSize (p : Profile) :
    (∀ size ∈ p.videoSize, size <:+: p.pipeline ∧ str "! x264enc " <:+: p.pipeline) ∧
      (p.videoSize = none →
        str "! rtph264depay ! rtph264pay " <:+: p.pipeline ∧ ¬str "x264enc" <:+: p.pipeline) := by
  simp only [← find_isSome_iff]
  cases p <;> exact ⟨by decide +kernel, by decide +kernel⟩

/-- What the factory gets is cut at the first NUL byte of the url. -/
theorem transcodes_iff : Transcodes p uri (c_str (launchDescription p uri)) ↔ 0 ∉ uri := by
  constructor
  · rintro ⟨rest, hlaunch, _⟩ h0
    refine c_str_no_nul (launchDescription p uri) ?_
    rw [hlaunch]
    simp [h0]
  · intro h
    exact ⟨p.pipeline, c_str_launchDescription h p, pipeline_videoSize p⟩

/-! ## Additions -/

/-- A successful call gives each of its four factories the tokens of the profile and nothing else. -/
def InjectionFree (gst : Gst) (now : Str) (s : TranscodingService) (id uri : Str) : Prop :=
  (AddRtsp gst (Env.calm now) id uri s).1.isSome → ∀ p, ∃ f : GstRTSPMediaFactory,
    (AddRtsp gst (Env.calm now) id uri s).2.mediaFactories[mountPoint id p]? = some f ∧
      words f.launch = p.tokens uri ∧ tokens f.launch = p.tokens uri

end TranscodingServer
