/-!
Kinds of characters: letters and figures of every script, characters that cannot be shown as
themselves, letters with case, and marks that a reader of case passes over.
-/

namespace FapLang.Text

/-- The code points in runs of one kind, each with its length, unless it is one, and the letter of
its kind: `w` for letters and figures, `l` for those with case, `n` for those that modify others,
`c` for signs with case, `m` for marks and accents, `f` for format characters, `h` for controls,
separators other than the plain space, private use and unassigned code points. -/
def kindRuns : List Char := String.toList <|
  "32h7.m6.m.10wm6.26l3.m.m26l4.34h7.m.l2.f.m2.2wml.2mwl.3w.23l.31l.195lw4l4w208lw27l18n4m12n14" ++
  "m5n7mnmn129m4lnm2l2hn3l.l4h2mlm3lhlh20lh83l.139l.7m166lh38l2hn5.m41l2.2h3.h45m.m.2m.2m.m8h27" ++
  "w4h4w.m11h6f10.11m.f3.32wn10w21m10w4.2wm99w.w7mf.6m2n2m.4m15w2.w14.hfwm30w27m2h89w11mw14h43w" ++
  "9m2n4.n2hm2.22w4mn9mn3mn5m2h15.h25w3m2h.h11w5h24wm6wh2f6h8m41wn24mf32m.54wm.mw3.8m4.m2.w7m10" ++
  "w2m2.10w.n15wm2.h8w2h2w2h22wh7whw3h4w2hmw3.4m2h2.2h2.mw8h.4h2wh3w2m2h12w2.6w2.w.m2h2m.h6w4h2" ++
  "w2h22wh7wh2wh2wh2w2hmh3.2m4h2m2h3m3hm7h4whw7h10w2m3wm.10h2m.h9wh3wh22wh7wh2wh5w2hmw3.5mh2m.h" ++
  "2.m2hw15h2w2m2h10w2.7hw6mhm2.h8w2h2w2h22wh7wh2wh5w2hmw.m.4m2h2.2h2.m7h2m.4h2wh3w2m2h10w.7w10" ++
  "hmwh6w3h3wh4w3h2whwh2w3h2w3h3w3h12w4h2.m2.3h3.h3.m2hw6h.14h13w8.5hm3.m8wh3wh23wh16w2hmw3m4.h" ++
  "3mh4m7h2mh3w2hw2h2w2m2h10w7h.7w.wm3.8wh3wh23wh10wh5w2hmw.m5.hm2.h2.2m7h2.6h2wh2w2m2h10wh2w13" ++
  "h2m2.9wh3wh41w2mw3.4mh3.h3.mw.4h3w.10w2m2h19w.6whm2.h18w3h24wh9whw2h7w3hm4h3.3mhmh8.6h10w2h3" ++
  ".12h48wm2w7m4h.6wn8m.10w2.37h2whwh5wh24whwh10wm2w9mw2h5whnh6m2h10w2h4w32hw23.2m6.20w.m.m.m6." ++
  "8wh36w4h14m.5m.2m5w11mh36mh8.m6.h13.37h43w2.4m.6m.2m2.2m11w6.6w2.2m4w3mw3.2w7.3w4m13wm2.2m6." ++
  "mw.10w3.m2.38lhl5hl2h43l.n3l329wh4w2h7whwh4w2h41wh4w2h33wh4w2h7whwh4w2h15wh57wh4w2h67w2h3m9." ++
  "20w3h16w10.6h86l2h6l2h.620w2.17wh26w2.3h75w3.11w7h18w3m.9h19w2m3.9h18w2m12h13wh3wh2m12h52w2m" ++
  ".7m8.m2.11m3.n4.wm2h10w6h10w6h11.3mfm10w6h35wn53w7h5w2m34wmw5h70w10h31wh3m4.2m3.4h2.m6.3m4h." ++
  "3h2.40w2h5w11h44w4h26w6h11w3h34.23w2m2.m2h2.53w.m.7mhm.m2.8m6.10m2hm10w6h10w6h7.n6.2h31m49h4" ++
  "m.47wm.5m.m5.m2.8w3h10w17.9m11.h2m.30w.4m2.2m.3m56wm.2m3.m.3m2.8h4.36w8.8m2.2m3h5.10w3h43w6n" ++
  "2.9l7h43l2h3l8.8h3m.13m.7m4wm6wm2w.2mw5h44l63n13ln34l37n64m278l2h6l2h38l2h6l2h8lhlhlhlh31l2h" ++
  "53lh7lml3m3lh7l3m4l2h6lh3m13l3m2h3lh7l2m12h5f8.2m10.m2.m2h5fh47.h5fh10fwn2h6w5.n10w5.h13n3h3" ++
  "3.15h33m15h2.l4.l2.10l.l3.5l6.l.l.l.4l.6l4wl2.4l5.5l4.l.16w32l3w2l5w2.4h663.25h11.21h60w26.5" ++
  "2c22w630.30w992.2h32.h105.124l2n103l6.4l3m2l5h4.w2.38lhl5hl2h56w7hn.14hm23w9h7wh7wh7wh7wh7wh" ++
  "7wh7wh7wh32m47.n46.34h26.h89.12h214.26h12.5h4.n2w25.9w4m3.5n2.3wnw3.h86w2h4m2nw.90w.3nw5h43w" ++
  "h94wh2.4w10.32w36.12h16w31.h10w30.8w.15w32.10w39.15w320.6592w64.21013wn1143w3h55.9h40w6n2.26" ++
  "8wn3.28w20h46lw4m.10m.n28l2n2m80w2m6.8h23m9n2m78ln23ln2m4lw59l5h2lhlh5l24h3n2lw2nl7wm3wm4wm2" ++
  "3w2.2m5.m3h6w4.6h52w4.8h2.50w16.2m8h2.10w6h18m6w3.w.2wm38w8m2.23w11m2.11h.29w3h3m.47wm2.4m2." ++
  "2m16.hn10w4h2.5wmn24wh41w6m2.2m2.2m9h3wm8wm.2h10w2h4.16wn6w3.w.m.50wmw3m2w2m5w2mwmw24h2wn2.1" ++
  "1w.2m4.w2n.m10h6w2h6w2h6w9h7wh7wh43lm4n9ln2m4h80l35w2.m2.m4.m2h10w6h11172w12h23w4h49w8452h36" ++
  "6w2h106w38h7l12h5l5hwm10w.13wh5whwh2wh2wh108w17m16h363w18.64w2h54w7h.32h12w4.16m3.m6.6h16m34" ++
  ".mh.m17.h4.4h5wh135w2hfh6.m6.m.10wm6.26l3.m.m26l11.10wn45w2n31w3h6w2h6w2h6w2h3w3h3.m3.h7.10h" ++
  "3f2.2h12wh26wh19wh2wh15w2h14w34h123w5h3.4h45w3h9.57w17.2w3.h13.3h.47h45.m130h29w3h49w15hm27w" ++
  "4h36w9h30w5h38w5m5h30wh.36w4h8w.5w42h80l78w2h10w6h36l4h36l4h40w8h52w11h.11lh15lh7lh2lh11lh15" ++
  "lh7lh2l67h311w9h22w10h8w24h6nh42nh9n69h6w2hwh44wh2w3hw2h23wh.31w2.38w8h9w48h19wh2w5h33w3h.26" ++
  "w5h.64h56w4h20w2h47w3mh2m5h4m4wh3wh29w2h3m4hm9w7h9.7h31w.32w32h8w.28w2m4h5w7.9h54w3h7.22w2h2" ++
  "7w5h26w7h4.12h7w80h73w55h51l13h51l7h42w4m8h10w294h31wh42wh2m.2h2w78h40w8h22w11m4w5.22h18w4m4" ++
  ".38h28w20h23w9h.m.53w15m7.4h30wm2w2mw9h3m.45w3.4m2.2m2.f4.m10hf2h25w7h10w6h3m36w5m.8mh10w4.w" ++
  "2.w8h35wm2.w9h2m.48w3.9m2.4w4.4m2.m11w.w3.h20w11h18wh25w3.3m2.m.2m6.m65h7whwh4wh15wh10w.6h47" ++
  "wm3.8m5h10w6h2m2.h8w2h2w2h22wh7wh2wh5wh2mw2.m4.2h2.2h3.2hw6h.5h5w2.2h7m3h5m139h53w3.8m2.3m.m" ++
  "4w5.10w2.h.m3w30h48w3.6m.m4.2m.2m2w.w8h10w166h47w3.4m2h4.2m.2m23.4w2m34h48w3.8m2.m.2m3.w11h1" ++
  "0w6h13.19h43wm.m2.6m.mw.6h10w54h27w2h3m2.4m.5m4h12w4.7w185h44w3.9m.2m.100h64l19w12h8w2hw2h8w" ++
  "h2wh24w6.h2.2h2m.mw.w.m3.9h10w70h8w2h39w3.4m2h2m4.mw.w.27hw10m40w6m.w4m8.m8hw6m2.3m46w13m.2m" ++
  "3.w5.13h73w263h9wh37w.7mh6m.mw5.10h29w3h2.30w2h22mh.7m.2m.2m73h7wh2wh38w6m3hmh2mh7mwm8h10w6h" ++
  "6wh2wh32w5.h2mh2.m.mw7h10w310h19w2m4.183hw15h21w29.13h.922w102h111wh5.11h196w2636h97w2.13h10" ++
  "71wh9f4039h583w8633h569w7h31wh10w4h2.79wh10w6h30w2h5m.10h48w7m9.4n2.10h10wh7wh21w5h19w688h64" ++
  "l23w4.101h75w4hmw55.7h4m13n64h2n.nm11h2.14h6136w8h1238w42h9w8935h4nh7nh2nh291w45h3w17h4w8h39" ++
  "6w2308h107w5h13w3h9w7h10w2h.2m.4f4700h46m2h23m9h116.60h246.10h39.2h62.3m9.8f8m2.7m30.4m61.21" ++
  "h66.3m.154h20w12h87.9h25w135h85lh71lh2l2hl2h2l2h4lh12lhlh7lh65lh4l2h8lh7lh28lh4lh5lhl3h7lh34" ++
  "0l2h25l.25l.31l.25l.31l.25l.31l.25l.31l.25l.8l2h50w512.55m4.50m8.m14.m7.15h5mh15m1104h10lw20" ++
  "l225h7mh17m2h7mh2mh5m213h45w3h7m7n2h10w4hw.320h30wm17h44w4m10w5h.1248h7wh4wh2wh15wh197w2h9w7" ++
  "m41h68l7mn4h10w4h2.785h59w.3w.4w76h45w.15w194h4wh27wh2whw2hwh10wh4whwhw6hw4hwhwhwh3wh2whw2hw" ++
  "hwhwhwhwh2whw2h4wh7wh4wh4whwh10wh17w5h3wh5wh17w52h2.270h44.4h100.12h15.2h15.h15.h37.10h13w35" ++
  ".26c6.26c6.26c36.56h29.13h44.4h9.7h2.14h6.154h251.5m728.5h16.3h13.3h116.12h89.7h12.4h.15h12." ++
  "4h56.8h10.6h40.8h30.2h2.78h340.12h14.2h5.3h5.3h7.9h29.3h11.5h6.10h10.6h8.8h7.9h147.h55.37h10" ++
  "w1030h42720w32h4153w7h222w2h5762w14h7473w3103h542w1506h4939w715958hf30h96f128h240m196112h"

/-- The kind of a code point, where `count` is what has been read of the length of the first run. -/
def kindFrom : Nat → List Char → Nat → Char
  | _, [], _ => '.'
  | count, c :: runs, code =>
    if c.isDigit then kindFrom (10 * count + (c.toNat - 48)) runs code
    else if code < max count 1 then c
    else kindFrom 0 runs (code - max count 1)

def kindOf (c : Char) : Char :=
  kindFrom 0 kindRuns c.toNat

def isWordChar (c : Char) : Bool :=
  c = '_' || ['w', 'l', 'n'].contains (kindOf c)

def isPrintable (c : Char) : Bool :=
  if c.toNat < 127 then 32 ≤ c.toNat else !(['h', 'f'].contains (kindOf c))

/-- The first character that is no mark has case. -/
def leadsCased (cs : List Char) : Bool :=
  (cs.find? fun c ↦ !(['m', 'n', 'f'].contains (kindOf c))).any fun c ↦ ['l', 'c'].contains (kindOf c)

end FapLang.Text
