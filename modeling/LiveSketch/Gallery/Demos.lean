import LiveSketch.Gallery.Basic

/-!
# Demos

Sketches that show what can be done.
-/
namespace LiveSketch.Gallery

/-- The demos, in the order in which they are listed. -/
def demos : List Sketch := [
  ⟨"rose", "Basic", "Rose", [
    "// 'B rose' by Guy John (@rumblesan)",
    "// Mozilla Festival 2012",
    "// adapted from 'A rose' by Lib4tech",
    "",
    "doOnce -> frame = 0",
    "background red",
    "scale 1.5",
    "animationStyle paintOver",
    "rotate frame/100",
    "fill 255-((frame/2)%255),0,0",
    "stroke 255-((frame/2)%255),0,0",
    "scale 1-((frame/2)%255) / 255",
    "box"]⟩,
  ⟨"cheese-and-olives", "Basic", "Cheese and olives", [
    "// 'Cheese and olives' by",
    "// Davina Tirvengadum",
    "// Mozilla festival 2012",
    "",
    "background white",
    "scale .3",
    "move 0,-1",
    "fill yellow",
    "stroke black",
    "rotate",
    "strokeSize 3",
    "line 4",
    "box",
    "",
    "rotate 2,3",
    "move 0,3",
    "scale .3",
    "fill black",
    "stroke black",
    "ball",
    "",
    "rotate 3",
    "move 5",
    "scale 1",
    "fill green",
    "stroke green",
    "ball",
    "",
    "rotate 1",
    "move -3",
    "scale 1",
    "fill yellow",
    "stroke yellow",
    "ball"]⟩,
  ⟨"simple-cube", "Basic", "Simple cube", [
    "// there you go!",
    "// a simple cube!",
    "",
    "background yellow",
    "rotate 0,time/2000,time/2000",
    "box"]⟩,
  ⟨"cubes-and-spikes", "Basic", "Cubes and spikes", cubesAndSpikes⟩,
  ⟨"little-spiral", "Basic", "Little spiral", [
    "background orange",
    "scale 0.1",
    "10 times ->",
    "\trotate 0,1,time/1000",
    "\tmove 1,1,1",
    "\tbox"]⟩,
  ⟨"tentacle", "Basic", "Tentacle", [
    "background 155,255,155",
    "scale 0.15",
    "3 times ->",
    "\trotate 0,1,1",
    "\t10 times ->",
    "\t\trotate 0,1,time/1000",
    "\t\tscale 0.9",
    "\t\tmove 1,1,1",
    "\t\tbox"]⟩,
  ⟨"lamp", "Basic", "Lamp", [
    "animationStyle motionBlur",
    "simpleGradient red,yellow,color(255,0,255)",
    "//animationStyle paintOver",
    "scale 2",
    "rotate time/4000, time/4000,  time/4000",
    "90 times ->",
    "\trotate time/200000, time/200000,  time/200000",
    "\tline",
    "\tmove 0.5,0,0",
    "\tline",
    "\tmove -0.5,0,0",
    "\tline",
    "\tline"]⟩,
  ⟨"trillion-feathers", "Basic", "A trillion feathers", [
    "animationStyle paintOver",
    "move 2,0,0",
    "scale 2",
    "rotate",
    "20 times ->",
    "\trotate",
    "\tmove 0.25,0,0",
    "\tline",
    "\tmove -0.5,0,0",
    "\tline"]⟩,
  ⟨"monster-blob", "Basic", "Monster blob", [
    "ballDetail 6",
    "animationStyle motionBlur",
    "rotate time/5000",
    "simpleGradient fuchsia,aqua,yellow",
    "5 times ->",
    "\trotate 0,1,time/5000",
    "\tmove 0.2,0,0",
    "\t3 times ->",
    "\t\trotate 1",
    "\t\tball -1"]⟩,
  ⟨"springy-squares", "Basic", "Springy squares", [
    "animationStyle motionBlur",
    "simpleGradient fuchsia,color(100,200,200),yellow",
    "scale 0.3",
    "3 times ->",
    "\tmove 0,0,0.5",
    "\t5 times ->",
    "\t\trotate time/2000",
    "\t\tmove 0.7,0,0",
    "\t\trect"]⟩,
  ⟨"two-cubes", "WebGL", "Two cubes", [
    "background 155,255,255",
    "2 times ->",
    "\trotate 0, 1, time/2000",
    "\tbox"]⟩,
  ⟨"turbine", "WebGL", "Turbine", [
    "background 155,55,255",
    "70 times ->",
    "\trotate time/100000,1,time/100000",
    "\tbox"]⟩,
  ⟨"red-threads", "WebGL", "Red threads", [
    "scale 10.5",
    "background black",
    "stroke red",
    "noFill",
    "strokeSize 7",
    "5 times ->",
    "\trotate time/20000",
    "\tball",
    "\trotate 0,1,1",
    "\tball"]⟩,
  ⟨"industrial-music", "Sound", "Sound: Industrial", [
    "bpm 88",
    "play 'alienBeep'  ,'zzxz zzzz zzxz zzzz'",
    "play 'beepC'  ,'zxzz zzzz xzzx xxxz'",
    "play 'beepA'  ,'zzxz zzzz zzxz zzzz'",
    "play 'lowFlash'  ,'zzxz zzzz zzzz zzzz'",
    "play 'beepB'  ,'xzzx zzzz zxzz zxzz'",
    "play 'voltage'  ,'xzxz zxzz xzxx xzxx'",
    "play 'tranceKick'  ,'zxzx zzzx xzzz zzxx'"]⟩,
  ⟨"z-fight", "WebGL", "WebGL: Z-fight!", [
    "// Explore the artifacts",
    "// of your GPU!",
    "// Go Z-fighting, go!",
    "scale 5",
    "rotate",
    "fill red",
    "box",
    "rotate 0.000001",
    "fill yellow",
    "box"]⟩,
  ⟨"try-sounds", "Sound", "Sound: Try them all", [
    "bpm 88",
    "// leave this one as base",
    "play 'tranceKick'  ,'zxzx zzzx xzzz zzxx'",
    "",
    "// uncomment the sounds you want to try",
    "//play 'toc'  ,'zzxz zzzz zzxz zzzz'",
    "//play 'highHatClosed'  ,'zzxz zzzz zzxz zzzz'",
    "//play 'highHatOpen'  ,'zzxz zzzz zzxz zzzz'",
    "//play 'toc2'  ,'zzxz zzzz zzxz zzzz'",
    "//play 'toc3'  ,'zzxz zzzz zzxz zzzz'",
    "//play 'toc4'  ,'zzxz zzzz zzxz zzzz'",
    "//play 'snare'  ,'zzxz zzzz zzxz zzzz'",
    "//play 'snare2'  ,'zzxz zzzz zzxz zzzz'",
    "//play 'china'  ,'zzxz zzzz zzxz zzzz'",
    "//play 'crash'  ,'zzxz zzzz zzxz zzzz'",
    "//play 'crash2'  ,'zzxz zzzz zzxz zzzz'",
    "//play 'crash3'  ,'zzxz zzzz zzxz zzzz'",
    "//play 'ride'  ,'zzxz zzzz zzxz zzzz'",
    "//play 'glass'  ,'zzxz zzzz zzxz zzzz'",
    "//play 'glass1'  ,'zzxz zzzz zzxz zzzz'",
    "//play 'glass2'  ,'zzxz zzzz zzxz zzzz'",
    "//play 'glass3'  ,'zzxz zzzz zzxz zzzz'",
    "//play 'thump'  ,'zzxz zzzz zzxz zzzz'",
    "//play 'lowFlash'  ,'zzxz zzzz zzxz zzzz'",
    "//play 'lowFlash2'  ,'zzxz zzzz zzxz zzzz'",
    "//play 'tranceKick2'  ,'zzxz zzzz zzxz zzzz'",
    "//play 'tranceKick'  ,'zzxz zzzz zzxz zzzz'",
    "//play 'wosh'  ,'zzxz zzzz zzxz zzzz'",
    "//play 'voltage'  ,'zzxz zzzz zzxz zzzz'",
    "//play 'beepA'  ,'zzxz zzzz zzxz zzzz'",
    "//play 'beepB'  ,'zzxz zzzz zzxz zzzz'",
    "//play 'beepC'  ,'zzxz zzzz zzxz zzzz'",
    "//play 'beepD'  ,'zzxz zzzz zzxz zzzz'",
    "//play 'beep'  ,'zzxz zzzz zzxz zzzz'",
    "//play 'hello'  ,'zzxz zzzz zzxz zzzz'",
    "//play 'alienBeep'  ,'zzxz zzzz zzxz zzzz'"]⟩,
  ⟨"dice", "Basic", "Dice", [
    "animationStyle motionBlur",
    "simpleGradient color(255),moccasin,peachpuff",
    "stroke 255,100,100,255",
    "fill red,155",
    "move -0.5,0,0",
    "scale 0.3",
    "3 times ->",
    "\tmove 0,0,0.5",
    "\t1 times ->",
    "\t\trotate time/1000",
    "\t\tmove 2,0,0",
    "\t\tbox"]⟩,
  ⟨"almost-voronoi", "WebGL", "WebGL: Almost Voronoi", [
    "scale 10",
    "2 times ->",
    "\trotate 0,1,time/10000",
    "\tball -1"]⟩,
  ⟨"shards", "WebGL", "WebGL: Shards", [
    "scale 10",
    "fill 0",
    "strokeSize 7",
    "5 times ->",
    "\trotate 0,1,time/20000",
    "\tball ",
    "\trotate 0,1,1",
    "\tball -1.01"]⟩,
  ⟨"nuclear-octopus", "WebGL", "WebGL: Nuclear octopus", [
    "simpleGradient black,color(0,0,(time/5)%255),black",
    "scale 0.2",
    "move 5,0,0",
    "animationStyle motionBlur",
    "//animationStyle paintOver",
    "stroke 255,0,0,120",
    "fill time%255,0,0",
    "pushMatrix",
    "count = 0",
    "3 times ->",
    "\tcount++",
    "\tpushMatrix",
    "\trotate count+3+time/1000,2+count + time/1000,4+count",
    "\t120 times ->",
    "\t\tscale 0.9",
    "\t\tmove 1,1,0",
    "\t\trotate time/100",
    "\t\tbox",
    "\tpopMatrix"]⟩]

end LiveSketch.Gallery
