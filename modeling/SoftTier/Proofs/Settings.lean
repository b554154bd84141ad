import SoftTier.Proofs.Service.Sessions
import SoftTier.Proofs.Json.Reading

/-!
# Settings files

However a settings file is laid out, reading it gives the settings that are written in it, and what
is not written has its default.

- `SoftSettings.Written`, `ServiceSettings.Written`: a text writes so much of the settings.
- `SoftSettings.takes`, `ServiceSettings.ofJson?_written`: what such a text is read as.
- `SoftSettings.written_toJson`, `ServiceSettings.exists_written`: there are such texts.
- `settings_files_round_trip`: what comes of loading a file, and that a service can be made of it.
-/

namespace SoftTier

open Json

/-! ## Soft layers -/

namespace SoftSettings

/-- The members of an object write so much of the settings: each field once at most, and for the
rest anything well formed under other keys. -/
structure WrittenIn (pin? soft? : Option Nat) (ms : List Member) : Prop where
  pinCapacity : Writes ms "pin_capacity" NaturalText pin?
  softCapacity : Writes ms "soft_capacity" NaturalText soft?
  other : ∀ m ∈ ms, m.key ∉ ["pin_capacity", "soft_capacity"] → Text .value m.value

/-- The text is an object that writes so much of the settings. -/
def Written (pin? soft? : Option Nat) (cs : List Char) : Prop :=
  ∃ ms, ObjectText ms cs ∧ WrittenIn pin? soft? ms

theorem find?_pinCapacity : fields.find? (·.name == "pin_capacity") =
    some (.once "pin_capacity" Draft.pinCapacity (fun n d => { d with pinCapacity := some n })
      natural) := rfl

theorem find?_softCapacity : fields.find? (·.name == "soft_capacity") =
    some (.once "soft_capacity" Draft.softCapacity (fun n d => { d with softCapacity := some n })
      natural) := rfl

/-- Members in any order fill in what is written and was not read before. -/
theorem WrittenIn.takesAll {pin? soft? : Option Nat} {ms : List Member}
    (h : WrittenIn pin? soft? ms) {d : Draft} (hpin : pin? = none ∨ d.pinCapacity = none)
    (hsoft : soft? = none ∨ d.softCapacity = none) :
    TakesAll fields d ms ⟨pin? <|> d.pinCapacity, soft? <|> d.softCapacity⟩ := by
  induction ms generalizing pin? soft? d with
  | nil =>
    obtain rfl := h.pinCapacity.eq_none
    obtain rfl := h.softCapacity.eq_none
    exact .nil d
  | cons m ms ih =>
    obtain ⟨hother, hothers⟩ := List.forall_mem_cons.mp h.other
    by_cases hpinKey : m.key = "pin_capacity"
    · obtain ⟨⟨n, rfl, hn⟩, hpin'⟩ := h.pinCapacity.head hpinKey
      have hsoft' := h.softCapacity.tail (by rw [hpinKey]; decide)
      have hd : d.pinCapacity = none := hpin.resolve_left (by simp)
      have htake := takes_once (hpinKey ▸ find?_pinCapacity) hd (takes_natural hn)
      exact .cons htake (ih ⟨hpin', hsoft', hothers⟩ (.inl rfl) hsoft)
    have hpin' := h.pinCapacity.tail hpinKey
    by_cases hsoftKey : m.key = "soft_capacity"
    · obtain ⟨⟨n, rfl, hn⟩, hsoft'⟩ := h.softCapacity.head hsoftKey
      have hd : d.softCapacity = none := hsoft.resolve_left (by simp)
      have htake := takes_once (hsoftKey ▸ find?_softCapacity) hd (takes_natural hn)
      exact .cons htake (ih ⟨hpin', hsoft', hothers⟩ hpin (.inl rfl))
    have hsoft' := h.softCapacity.tail hsoftKey
    have hkey : m.key ∉ ["pin_capacity", "soft_capacity"] := by simp [hpinKey, hsoftKey]
    have hfind : fields.find? (·.name == m.key) = none := by
      simp [fields, Field.once, Ne.symm hpinKey, Ne.symm hsoftKey]
    exact .cons (takes_other hfind (hother hkey)) (ih ⟨hpin', hsoft', hothers⟩ hpin hsoft)

/-- A text is read as the settings written in it, the rest by default. -/
theorem takes {pin? soft? : Option Nat} {cs : List Char} (h : Written pin? soft? cs) :
    Takes reader cs ⟨pin?.getD 256, soft?.getD 4096⟩ := by
  obtain ⟨ms, hobject, h⟩ := h
  have hcomplete : Draft.complete ⟨pin? <|> none, soft? <|> none⟩ =
      ⟨pin?.getD 256, soft?.getD 4096⟩ := by simp [Draft.complete]
  have hall := h.takesAll (d := {}) (.inr rfl) (.inr rfl)
  exact hcomplete ▸ (hobject.takes hall).map Draft.complete

end SoftSettings

/-! ## Services -/

namespace ServiceSettings

/-- The members of an object write so much of the settings, with any part of those of the soft
layer. -/
structure WrittenIn (id? : Option String) (soft? : Option (Option Nat × Option Nat))
    (metered? : Option Bool) (ms : List Member) : Prop where
  id : Writes ms "id" StringText id?
  soft : Writes ms "soft" (fun s => SoftSettings.Written s.1 s.2) soft?
  metered : Writes ms "logging" BoolText metered?
  other : ∀ m ∈ ms, m.key ∉ ["id", "soft", "logging"] → Text .value m.value

/-- The text is an object that writes so much of the settings, with blanks around it. -/
def Written (id? : Option String) (soft? : Option (Option Nat × Option Nat))
    (metered? : Option Bool) (cs : List Char) : Prop :=
  ∃ b ms o b', Blank b ∧ ObjectText ms o ∧ Blank b' ∧ cs = b ++ (o ++ b') ∧
    WrittenIn id? soft? metered? ms

theorem find?_id : fields.find? (·.name == "id") =
    some (.once "id" Draft.id (fun s d => { d with id := some s }) Json.string) := rfl

theorem find?_soft : fields.find? (·.name == "soft") =
    some (.once "soft" Draft.soft (fun s d => { d with soft := some s }) SoftSettings.reader) := rfl

theorem find?_metered : fields.find? (·.name == "logging") =
    some (.once "logging" Draft.metered (fun b d => { d with metered := some b }) Json.bool) := rfl

/-- What is read for so much of the settings of a soft layer. -/
def softOf (s : Option Nat × Option Nat) : SoftSettings := ⟨s.1.getD 256, s.2.getD 4096⟩

/-- Members in any order fill in what is written and was not read before. -/
theorem WrittenIn.takesAll {id? : Option String} {soft? : Option (Option Nat × Option Nat)}
    {metered? : Option Bool} {ms : List Member} (h : WrittenIn id? soft? metered? ms) {d : Draft}
    (hid : id? = none ∨ d.id = none) (hsoft : soft? = none ∨ d.soft = none)
    (hmetered : metered? = none ∨ d.metered = none) :
    TakesAll fields d ms ⟨id? <|> d.id, soft?.map softOf <|> d.soft, metered? <|> d.metered⟩ := by
  induction ms generalizing id? soft? metered? d with
  | nil =>
    obtain rfl := h.id.eq_none
    obtain rfl := h.soft.eq_none
    obtain rfl := h.metered.eq_none
    exact .nil d
  | cons m ms ih =>
    obtain ⟨hother, hothers⟩ := List.forall_mem_cons.mp h.other
    by_cases hidKey : m.key = "id"
    · obtain ⟨⟨s, rfl, hs⟩, hid'⟩ := h.id.head hidKey
      have hsoft' := h.soft.tail (by rw [hidKey]; decide)
      have hmetered' := h.metered.tail (by rw [hidKey]; decide)
      have hd : d.id = none := hid.resolve_left (by simp)
      have htake := takes_once (hidKey ▸ find?_id) hd (takes_string hs)
      exact .cons htake (ih ⟨hid', hsoft', hmetered', hothers⟩ (.inl rfl) hsoft hmetered)
    have hid' := h.id.tail hidKey
    by_cases hsoftKey : m.key = "soft"
    · obtain ⟨⟨s, rfl, hs⟩, hsoft'⟩ := h.soft.head hsoftKey
      have hmetered' := h.metered.tail (by rw [hsoftKey]; decide)
      have hd : d.soft = none := hsoft.resolve_left (by simp)
      have htake := takes_once (hsoftKey ▸ find?_soft) hd (SoftSettings.takes hs)
      exact .cons htake (ih ⟨hid', hsoft', hmetered', hothers⟩ hid (.inl rfl) hmetered)
    have hsoft' := h.soft.tail hsoftKey
    by_cases hmeteredKey : m.key = "logging"
    · obtain ⟨⟨b, rfl, hb⟩, hmetered'⟩ := h.metered.head hmeteredKey
      have hd : d.metered = none := hmetered.resolve_left (by simp)
      have htake := takes_once (hmeteredKey ▸ find?_metered) hd (takes_bool hb)
      exact .cons htake (ih ⟨hid', hsoft', hmetered', hothers⟩ hid hsoft (.inl rfl))
    have hmetered' := h.metered.tail hmeteredKey
    have hkey : m.key ∉ ["id", "soft", "logging"] := by simp [hidKey, hsoftKey, hmeteredKey]
    have hfind : fields.find? (·.name == m.key) = none := by
      simp [fields, Field.once, Ne.symm hidKey, Ne.symm hsoftKey, Ne.symm hmeteredKey]
    exact .cons (takes_other hfind (hother hkey))
      (ih ⟨hid', hsoft', hmetered', hothers⟩ hid hsoft hmetered)

/-- A text is read as the settings written in it, the rest by default. -/
theorem ofJson?_written {id? : Option String} {soft? : Option (Option Nat × Option Nat)}
    {metered? : Option Bool} {text : String} (h : Written id? soft? metered? text.toList) :
    ofJson? text = some ⟨id?.getD "default",
      ⟨(soft?.bind Prod.fst).getD 256, (soft?.bind Prod.snd).getD 4096⟩, metered?.getD true⟩ := by
  obtain ⟨b, ms, o, b', hb, hobject, hb', htext, h⟩ := h
  have hcomplete : Draft.complete ⟨id? <|> none, soft?.map softOf <|> none, metered? <|> none⟩ =
      ⟨id?.getD "default", ⟨(soft?.bind Prod.fst).getD 256, (soft?.bind Prod.snd).getD 4096⟩,
        metered?.getD true⟩ := by
    cases soft? <;> simp [Draft.complete, softOf]
  have hall := h.takesAll (d := {}) (.inr rfl) (.inr rfl) (.inr rfl)
  have htake : Takes reader o _ := (hobject.takes hall).map Draft.complete
  exact hcomplete ▸ htake.parse? hb hb' htext

end ServiceSettings

/-! ## Texts of given settings -/

/-- The bounds are numbers that a machine word holds. -/
def SoftSettings.InRange (s : SoftSettings) : Prop :=
  s.pinCapacity < UInt64.size ∧ s.softCapacity < UInt64.size

/-- The compact form of the settings of a soft layer is a text of them. -/
theorem SoftSettings.written_toJson {s : SoftSettings} (h : s.InRange) :
    Written (some s.pinCapacity) (some s.softCapacity) s.toJson.toList := by
  obtain ⟨pin, soft⟩ := s
  obtain ⟨hpin, hsoft⟩ := h
  have hpinMember : MemberText ⟨"pin_capacity", (toString pin).toList⟩
      ("\"pin_capacity\":".toList ++ (toString pin).toList) :=
    memberText_plain "pin_capacity" _ (by simp [Plain])
  have hsoftMember : MemberText ⟨"soft_capacity", (toString soft).toList⟩
      ("\"soft_capacity\":".toList ++ (toString soft).toList) :=
    memberText_plain "soft_capacity" _ (by simp [Plain])
  have hobject := ObjectText.members (.more hpinMember (.last hsoftMember))
  -- The equation of `toJson` is too slow to generate for its literals, so it is unfolded.
  have htext : (toJson ⟨pin, soft⟩).toList = '\x7b' ::
      ("\"pin_capacity\":".toList ++ (toString pin).toList ++
        ',' :: ("\"soft_capacity\":".toList ++ (toString soft).toList) ++ ['\x7d']) := by
    unfold toJson
    simp
  rw [htext]
  exact ⟨_, hobject, ⟨[], _, _, rfl, ⟨hpin, rfl⟩, by simp⟩,
    ⟨[_], _, [], rfl, ⟨hsoft, rfl⟩, by simp⟩, by simp⟩

/-- The settings of a soft layer are read back from their compact form. -/
theorem SoftSettings.ofJson?_toJson {s : SoftSettings} (h : s.InRange) :
    ofJson? s.toJson = some s :=
  (takes (written_toJson h)).parse? blank_nil blank_nil (by simp)

namespace ServiceSettings

/-- All settings can be written. -/
theorem exists_written {settings : ServiceSettings} (h : settings.soft.InRange) :
    ∃ text : String, Written (some settings.id)
      (some (some settings.soft.pinCapacity, some settings.soft.softCapacity))
      (some settings.metered) text.toList := by
  obtain ⟨cs, hid⟩ := exists_stringText settings.id
  obtain ⟨o, hobject⟩ := exists_objectText [⟨"id", cs⟩, ⟨"soft", settings.soft.toJson.toList⟩,
    ⟨"logging", (toString settings.metered).toList⟩]
  refine ⟨String.ofList o, [], _, o, [], blank_nil, hobject, blank_nil, by simp, ?_⟩
  exact ⟨⟨[], _, _, rfl, hid, by simp⟩,
    ⟨[_], _, _, rfl, SoftSettings.written_toJson h, by simp⟩,
    ⟨[_, _], _, [], rfl, rfl, by simp⟩, by simp⟩

/-! ## Loading -/

/-- A file is loaded as the settings written in it. Only the capacity for soft retention can be
refused, and only if it is 0. -/
theorem load_written {id? : Option String} {soft? : Option (Option Nat × Option Nat)}
    {metered? : Option Bool} {text : String} (path : String)
    (h : Written id? soft? metered? text.toList) :
    load path (some text.toUTF8) =
      if (soft?.bind Prod.snd).getD 4096 = 0 then .error (.invalid .softCapacityZero)
      else .ok ⟨id?.getD "default",
        ⟨(soft?.bind Prod.fst).getD 256, (soft?.bind Prod.snd).getD 4096⟩, metered?.getD true⟩ := by
  have hutf8 : String.fromUTF8? text.toUTF8 = some text := by
    rw [String.fromUTF8?]
    exact dif_pos text.isValidUTF8
  simp only [load, Option.bind_some, hutf8, ofJson?_written h, SoftSettings.check]
  by_cases hcap : (soft?.bind Prod.snd).getD 4096 = 0
  · rw [if_pos hcap, if_pos hcap]
  · rw [if_neg hcap, if_neg hcap]

/-- Loaded settings have room for a value. -/
theorem softCapacity_pos_of_load {path : String} {content : Option ByteArray}
    {settings : ServiceSettings} (h : load path content = .ok settings) :
    0 < settings.soft.softCapacity := by
  rw [load] at h
  split at h
  case h_1 => exact absurd h nofun
  split at h
  case h_1 => exact absurd h nofun
  rename_i read _
  split at h
  case h_1 => exact absurd h nofun
  rename_i hcheck
  obtain rfl := Except.ok.inj h
  rw [SoftSettings.check] at hcheck
  split at hcheck
  · exact absurd hcheck nofun
  · omega

end ServiceSettings

/-- Settings files and back. All settings whose bounds a machine word holds can be written in a
file. A file that writes any part of the settings, in any order and layout and with anything well
formed under other keys, is loaded as what it writes with defaults for the rest; only where this
leaves no room for soft retention is it refused, and as just that. The compact form of the settings
of a soft layer is read back. And a service can be set up with whatever settings were loaded,
however many values are to be pinned instead. -/
theorem settings_files_round_trip :
    (∀ settings : ServiceSettings, settings.soft.InRange → ∃ text : String,
      ServiceSettings.Written (some settings.id)
        (some (some settings.soft.pinCapacity, some settings.soft.softCapacity))
        (some settings.metered) text.toList) ∧
    (∀ id? soft? metered? (path text : String),
      ServiceSettings.Written id? soft? metered? text.toList →
      ServiceSettings.load path (some text.toUTF8) =
        if (soft?.bind Prod.snd).getD 4096 = 0 then .error (.invalid .softCapacityZero)
        else .ok
          { id := id?.getD "default"
            soft :=
              { pinCapacity := (soft?.bind Prod.fst).getD 256
                softCapacity := (soft?.bind Prod.snd).getD 4096 }
            metered := metered?.getD true }) ∧
    (∀ s : SoftSettings, s.InRange → SoftSettings.ofJson? s.toJson = some s) ∧
    (∀ path content settings, ServiceSettings.load path content = .ok settings →
      ∀ n, ∃ service,
        Service.ofSettings { settings with soft.pinCapacity := n } = .ok service) := by
  refine ⟨fun settings h => ServiceSettings.exists_written h,
    fun id? soft? metered? path text h => ServiceSettings.load_written path h,
    fun s h => SoftSettings.ofJson?_toJson h, fun path content settings h n => ?_⟩
  have hcap := ServiceSettings.softCapacity_pos_of_load h
  obtain ⟨r, -, hservice⟩ := Service.ofSettings_eq
    (show 0 < { settings with soft.pinCapacity := n }.soft.softCapacity from hcap)
  exact ⟨_, hservice⟩

/-- A file with half of a surrogate pair and a number beyond all bounds under a key that is no
field, with part of the settings of the soft layer, and with an escape in the key of the name. -/
def strangersFile : String :=
  " \x7b\"x\":[\"\\ud800\",1e999],\"soft\":\x7b\"pin_capacity\":7\x7d,\"i\\u0064\":\"u\"\x7d"

theorem load_strangersFile :
    ServiceSettings.load "c.json" (some strangersFile.toUTF8) = .ok ⟨"u", ⟨7, 4096⟩, true⟩ ∧
    SoftSettings.ofJson? (SoftSettings.toJson ⟨1, 2⟩) = some ⟨1, 2⟩ ∧
    ∃ service, Service.ofSettings ⟨"u", ⟨0, 4096⟩, true⟩ = .ok service := by
  obtain ⟨-, hload, hback, hbuild⟩ := settings_files_round_trip
  have hstranger : Text .value "[\"\\ud800\",1e999]".toList := by
    have hhalf : UnitEscape 0xD800 "\\ud800".toList :=
      .mk (.inl rfl : HexDigit 13 'd') (.inl rfl : HexDigit 8 '8') (.inl rfl : HexDigit 0 '0')
        (.inl rfl : HexDigit 0 '0')
    have hstring : AnyString "\"\\ud800\"".toList := .mk (.cons (.unit hhalf) .nil)
    have hint : IntegerText ['1'] := .digits ⟨by simp, by simp⟩ (by decide)
    have hdigits : Digits ['9', '9', '9'] := ⟨by simp, by simp⟩
    have hexp : ExponentText "e999".toList :=
      .present (by decide) (List.mem_cons_self : [] ∈ _) hdigits
    have hnumber : NumberText "1e999".toList :=
      .mk (List.mem_cons_self : [] ∈ _) hint .absent hexp
    exact .array (.moreElements (element_compact (.string hstring))
      (.lastElement (element_compact (.number hnumber))))
  have hsoft : SoftSettings.Written (some 7) none "\x7b\"pin_capacity\":7\x7d".toList := by
    have hmember : MemberText ⟨"pin_capacity", ['7']⟩ "\"pin_capacity\":7".toList :=
      memberText_plain "pin_capacity" _ (by simp [Plain])
    exact ⟨_, .members (.last hmember), ⟨[], _, [], rfl, ⟨by decide, rfl⟩, by simp⟩,
      by simp [Writes], by simp⟩
  have hkey : StringText "id" "\"i\\u0064\"".toList := by
    have hunit : UnitEscape 'd'.toNat "\\u0064".toList :=
      .mk (.inl rfl : HexDigit 0 '0') (.inl rfl : HexDigit 0 '0') (.inl rfl : HexDigit 6 '6')
        (.inl rfl : HexDigit 4 '4')
    have hchars : CharsText "id".toList "i\\u0064".toList :=
      .cons (.plain (by decide)) (.cons (.unit (by decide) hunit) .nil)
    exact .mk hchars
  have hobject := ObjectText.members (.more
    (memberText_plain "x" "[\"\\ud800\",1e999]".toList (by simp [Plain]))
    (.more (memberText_plain "soft" "\x7b\"pin_capacity\":7\x7d".toList (by simp [Plain]))
    (.last (memberText_compact (m := ⟨"id", "\"u\"".toList⟩) hkey))))
  have hvalue : StringText "u" "\"u\"".toList := stringText_plain (s := "u") (by simp [Plain])
  have hloaded := hload (some "u") (some (some 7, none)) none "c.json" strangersFile
    ⟨[' '], _, _, [], by simp [Blank], hobject, blank_nil, rfl,
      ⟨[_, _], _, [], rfl, hvalue, by simp⟩, ⟨[_], _, [_], rfl, hsoft, by simp⟩,
      by simp [Writes], by simpa using hstranger⟩
  exact ⟨hloaded, hback ⟨1, 2⟩ ⟨by decide, by decide⟩, hbuild _ _ _ hloaded 0⟩

end SoftTier
